import Ratect.Interrupt

/-! # Errors, and what an invocation exits with

An error is a value of some type with the contexts added to it, and the code asks for its type by
downcasting.  A downcast sees through every context, and through neither of the engine's two
wrappers: `Failed`, which names the step a failure is of, and `FailureReported`, which marks it as
reported.  `forError` and `alreadyReported` decide by such downcasts what a failure exits with and
whether `main` still has to print it.

A failure that several wait for is kept in a cell, and each of them gets it by `unshare`, as text.
`unshare_spec` says what is kept of it. -/

namespace Ratect

/-- What the opening line of a cleanup names as its cause. -/
inductive CleanupCause where
  | exited (task : String) (exitCode : ℤ)
  | imagePullFailed (container : String)
  | imageBuildFailed (container : String)
  | createFailed (container : String)
  | startFailed (container : String)
  | notHealthy (container : String)
  | setupCommandExited (container : String) (index : ℕ) (exitCode : ℤ)
  | setupCommandNotRun (container : String) (index : ℕ)
  | dependencyExited (container : String) (exitCode : ℤ)
  | failed (task : String)
deriving DecidableEq, Repr

/-- The error types that the code asks for, and every other one by its text. -/
inductive Fault where
  | containerExitedNonZero (exitCode : ℤ)
  | taskInterrupted (signal : TerminationSignal)
  | stdoutClosed
  | cleanupFailed (task run : String)
  | notReady (message : String)
  | containerStartFailed (container : String)
  | verbFailuresReported
  | invalidOptionValue (message : String)
  | other (message : String)
deriving DecidableEq, Repr

/-- `anyhow::Error`: an error, a context added to one, and the engine's wrappers of one. -/
inductive AnyError where
  | new (fault : Fault)
  | context (fault : Fault) (error : AnyError)
  | failed (cause : CleanupCause) (error : AnyError)
  | failureReported (error : AnyError)
deriving DecidableEq, Repr

namespace AnyError

/-- A downcast to a type of errors that no wrapper is of. -/
def downcast {α : Type} (as : Fault → Option α) : AnyError → Option α
  | new fault => as fault
  | context fault error => (as fault).or (error.downcast as)
  | failed _ _ => none
  | failureReported _ => none

/-- The downcast to `Failed`. -/
def downcastFailed : AnyError → Option (CleanupCause × AnyError)
  | new _ => none
  | context _ error => error.downcastFailed
  | failed cause error => some (cause, error)
  | failureReported _ => none

/-- The downcast to `FailureReported`. -/
def downcastReported : AnyError → Option AnyError
  | new _ => none
  | context _ error => error.downcastReported
  | failed _ _ => none
  | failureReported error => some error

end AnyError

namespace Fault

/-- The exit code of a `ContainerExitedNonZero`. -/
def exitCode? : Fault → Option ℤ
  | containerExitedNonZero exitCode => some exitCode
  | _ => none

/-- The signal of a `TaskInterrupted`. -/
def signal? : Fault → Option TerminationSignal
  | taskInterrupted signal => some signal
  | _ => none

def stdoutClosed? : Fault → Option Unit
  | stdoutClosed => some ()
  | _ => none

def cleanupFailed? : Fault → Option (String × String)
  | cleanupFailed task run => some (task, run)
  | _ => none

def notReady? : Fault → Option String
  | notReady message => some message
  | _ => none

def containerStartFailed? : Fault → Option String
  | containerStartFailed container => some container
  | _ => none

def verbFailuresReported? : Fault → Option Unit
  | verbFailuresReported => some ()
  | _ => none

/-- The types of which a run's end makes an error, or a verb that has reported its own. -/
def isOutcome : Fault → Bool
  | containerExitedNonZero _ => true
  | taskInterrupted _ => true
  | stdoutClosed => true
  | cleanupFailed _ _ => true
  | verbFailuresReported => true
  | _ => false

theorem no_outcome {fault : Fault} (h : fault.isOutcome = false) :
    fault.exitCode? = none ∧ fault.signal? = none ∧ fault.stdoutClosed? = none ∧
      fault.cleanupFailed? = none ∧ fault.verbFailuresReported? = none := by
  cases fault with
  | containerExitedNonZero exitCode => cases h
  | taskInterrupted signal => cases h
  | stdoutClosed => cases h
  | cleanupFailed task run => cases h
  | verbFailuresReported => cases h
  | _ => exact ⟨rfl, rfl, rfl, rfl, rfl⟩

end Fault

/-! ### Exit codes -/

/-- `RATECT_FAILED`. -/
def ratectFailed : ℕ := 125

/-- `StdoutClosed::EXIT_CODE`. -/
def stdoutClosedExitCode : ℕ := 141

/-- `exit_code as u8`, of an `i64`. -/
def asU8 (exitCode : ℤ) : ℕ := (exitCode % 256).toNat

/-- `for_error`: the process exit code for a failed run. -/
def forError (error : AnyError) : ℕ :=
  let error := error.downcastReported.getD error
  match error.downcast Fault.exitCode? with
  | some exitCode => asU8 exitCode
  | none =>
      match error.downcast Fault.signal? with
      | some signal => signal.exitCode
      | none =>
          if (error.downcast Fault.stdoutClosed?).isSome then stdoutClosedExitCode else ratectFailed

/-- `already_reported`: whether a failure has reached the user by another route. -/
def alreadyReported (error : AnyError) : Bool :=
  (error.downcast Fault.exitCode?).isSome || (error.downcast Fault.signal?).isSome ||
    (error.downcast Fault.stdoutClosed?).isSome || (error.downcast Fault.cleanupFailed?).isSome ||
    error.downcastReported.isSome || (error.downcast Fault.verbFailuresReported?).isSome

/-! ### The step a failure is of -/

/-- `failed_step`: found through any context, and through `FailureReported`. -/
def failedStep : AnyError → Option CleanupCause
  | .new _ => none
  | .context _ error => failedStep error
  | .failed cause _ => some cause
  | .failureReported error => failedStep error

/-- `is_not_ready`: found through any context, and through `Failed`. -/
def isNotReady : AnyError → Bool
  | .new fault => fault.notReady?.isSome
  | .context fault error => fault.notReady?.isSome || isNotReady error
  | .failed _ error => isNotReady error
  | .failureReported _ => false

section shared

variable (debug : AnyError → String)

/-- `unshare`, of the error in a cell: `debug` is how it prints with its causes. -/
def unshare (error : AnyError) : AnyError :=
  let flattened : AnyError :=
    .new (if isNotReady error then .notReady (debug error) else .other (debug error))
  match failedStep error with
  | some cause => .failed cause flattened
  | none => flattened

/-- Whoever gets a shared failure learns the step it is of and whether it asks for the hint, and
nothing else of its type. -/
theorem unshare_spec (error : AnyError) :
    failedStep (unshare debug error) = failedStep error ∧
      isNotReady (unshare debug error) = isNotReady error := by
  unfold unshare
  cases failedStep error with
  | none => cases h : isNotReady error <;> simp [failedStep, isNotReady, Fault.notReady?]
  | some cause => cases h : isNotReady error <;> simp [failedStep, isNotReady, Fault.notReady?]

end shared

namespace AnyError

/-- A failure of a step: no outcome of a run, and not reported yet. -/
def Infrastructure : AnyError → Prop
  | new fault => fault.isOutcome = false
  | context fault error => fault.isOutcome = false ∧ error.Infrastructure
  | failed _ error => error.Infrastructure
  | failureReported _ => False

instance decidableInfrastructure : (error : AnyError) → Decidable error.Infrastructure
  | new fault => inferInstanceAs (Decidable (fault.isOutcome = false))
  | context _ error => @instDecidableAnd _ _ _ (decidableInfrastructure error)
  | failed _ error => decidableInfrastructure error
  | failureReported _ => instDecidableFalse

theorem infrastructure_unshare (debug : AnyError → String) (error : AnyError) :
    (unshare debug error).Infrastructure := by
  unfold unshare
  cases failedStep error <;> cases isNotReady error <;> simp [Infrastructure, Fault.isOutcome]

/-- An error with contexts added, the last of them outermost. -/
def withContexts (error : AnyError) (contexts : List String) : AnyError :=
  contexts.foldl (fun error text => .context (.other text) error) error

section downcasts

variable {α : Type} {as : Fault → Option α}

theorem downcast_withContexts (hother : ∀ text, as (.other text) = none) (error : AnyError)
    (contexts : List String) : (error.withContexts contexts).downcast as = error.downcast as := by
  unfold withContexts
  induction contexts generalizing error with
  | nil => rfl
  | cons text contexts ih =>
      rw [List.foldl_cons, ih]
      simp [downcast, hother]

theorem downcastReported_withContexts (error : AnyError) (contexts : List String) :
    (error.withContexts contexts).downcastReported = error.downcastReported := by
  unfold withContexts
  induction contexts generalizing error with
  | nil => rfl
  | cons text contexts ih =>
      rw [List.foldl_cons, ih]
      rfl

/-- No downcast to an outcome finds one in the failure of a step. -/
theorem Infrastructure.downcast_eq_none {error : AnyError} (h : error.Infrastructure)
    (has : ∀ fault, fault.isOutcome = false → as fault = none) : error.downcast as = none := by
  induction error with
  | new fault => exact has fault h
  | context fault error ih =>
      have hinner := ih h.2
      simp [downcast, has fault h.1, hinner]
  | failed cause error _ => rfl
  | failureReported error _ => exact h.elim

theorem Infrastructure.downcastReported_eq_none {error : AnyError} (h : error.Infrastructure) :
    error.downcastReported = none := by
  induction error with
  | new fault => rfl
  | context fault error ih => exact ih h.2
  | failed cause error _ => rfl
  | failureReported error _ => exact h.elim

end downcasts

/-- The failure of a step is no outcome of a run. -/
theorem Infrastructure.no_outcome {error : AnyError} (h : error.Infrastructure) :
    error.downcast Fault.exitCode? = none ∧ error.downcast Fault.signal? = none ∧
      error.downcast Fault.stdoutClosed? = none ∧ error.downcast Fault.cleanupFailed? = none ∧
      error.downcast Fault.verbFailuresReported? = none :=
  ⟨h.downcast_eq_none fun _ hf => (Fault.no_outcome hf).1,
    h.downcast_eq_none fun _ hf => (Fault.no_outcome hf).2.1,
    h.downcast_eq_none fun _ hf => (Fault.no_outcome hf).2.2.1,
    h.downcast_eq_none fun _ hf => (Fault.no_outcome hf).2.2.2.1,
    h.downcast_eq_none fun _ hf => (Fault.no_outcome hf).2.2.2.2⟩

/-- The failure of a step is not yet reported. -/
theorem Infrastructure.not_alreadyReported {error : AnyError} (h : error.Infrastructure) :
    alreadyReported error = false := by
  obtain ⟨hexit, hsignal, hstdout, hcleanup, hverb⟩ := h.no_outcome
  simp [alreadyReported, hexit, hsignal, hstdout, hcleanup, hverb, h.downcastReported_eq_none]

/-- Contexts change neither the exit code nor whether the failure is reported. -/
theorem forError_withContexts (error : AnyError) (contexts : List String) :
    forError (error.withContexts contexts) = forError error := by
  unfold forError
  rw [downcastReported_withContexts]
  cases error.downcastReported with
  | some inner => rfl
  | none =>
      dsimp only [Option.getD_none]
      rw [downcast_withContexts fun _ => rfl, downcast_withContexts fun _ => rfl,
        downcast_withContexts fun _ => rfl]

theorem alreadyReported_withContexts (error : AnyError) (contexts : List String) :
    alreadyReported (error.withContexts contexts) = alreadyReported error := by
  unfold alreadyReported
  rw [downcastReported_withContexts, downcast_withContexts fun _ => rfl,
    downcast_withContexts fun _ => rfl, downcast_withContexts fun _ => rfl,
    downcast_withContexts fun _ => rfl, downcast_withContexts fun _ => rfl]

end AnyError

end Ratect
