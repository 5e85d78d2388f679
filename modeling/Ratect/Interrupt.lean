import Mathlib

/-! # Termination signals

`interrupt.rs`: the three trapped signals and the tracker that counts them.  `count` counts every
signal, `interrupts` only `SIGINT`s, and `lastSignal` keeps the number of the most recent one;
zero, before any signal, is no signal's number and reads as `SIGINT`.  A signal is recorded in two
halves, the number and the `SIGINT`s first: a reader may come between them. -/

namespace Ratect

/-- A signal the program traps. -/
inductive TerminationSignal where
  | interrupt
  | terminate
  | hangup
deriving DecidableEq, Repr

namespace TerminationSignal

/-- Every signal trapped. -/
def all : List TerminationSignal := [interrupt, terminate, hangup]

/-- The signal's own number. -/
def number : TerminationSignal → ℕ
  | interrupt => 2
  | terminate => 15
  | hangup => 1

/-- The process exit code for a run the signal ended. -/
def exitCode (s : TerminationSignal) : ℕ := 128 + s.number

def name : TerminationSignal → String
  | interrupt => "SIGINT"
  | terminate => "SIGTERM"
  | hangup => "SIGHUP"

/-- How a run ended by the signal describes itself. -/
def endedRun : TerminationSignal → String
  | interrupt => "Interrupted"
  | terminate => "Terminated by SIGTERM"
  | hangup => "Terminated by SIGHUP"

/-- The notice for a run the signal ends before `task` starts. -/
def notStarting (s : TerminationSignal) (task : String) : String :=
  s!"{s.endedRun}; not starting task '{task}'."

/-- How to ask a second time. -/
def sendAgain : TerminationSignal → String
  | interrupt => "Press Ctrl+C again"
  | terminate => "Send SIGTERM again"
  | hangup => "Send SIGHUP again"

/-- The signal a number names; `SIGINT` for anything else. -/
def fromNumber (n : ℕ) : TerminationSignal := (all.find? fun s => s.number == n).getD interrupt

theorem fromNumber_number (s : TerminationSignal) : fromNumber s.number = s := by
  cases s <;> rfl

end TerminationSignal

/-- The tracker's counters. -/
structure Interrupt where
  count : ℕ
  interrupts : ℕ
  lastSignalNumber : ℕ
deriving DecidableEq, Repr

namespace Interrupt

/-- A tracker with nothing recorded. -/
def new : Interrupt := ⟨0, 0, 0⟩

/-- `record_signal`: the signal is stored, then counted. -/
def recordSignal (i : Interrupt) (s : TerminationSignal) : Interrupt :=
  { lastSignalNumber := s.number
    interrupts := if s = .interrupt then i.interrupts + 1 else i.interrupts
    count := i.count + 1 }

/-- The first half of `record_signal`: the signal is stored, and a `SIGINT` counted as one. -/
def noteSignal (i : Interrupt) (s : TerminationSignal) : Interrupt :=
  { i with
    lastSignalNumber := s.number
    interrupts := if s = .interrupt then i.interrupts + 1 else i.interrupts }

/-- The second half: the count is raised. -/
def raiseCount (i : Interrupt) : Interrupt := { i with count := i.count + 1 }

/-- The most recent signal recorded. -/
def lastSignal (i : Interrupt) : TerminationSignal := .fromNumber i.lastSignalNumber

@[simp] theorem recordSignal_count (i : Interrupt) (s : TerminationSignal) :
    (i.recordSignal s).count = i.count + 1 := rfl

@[simp] theorem recordSignal_lastSignal (i : Interrupt) (s : TerminationSignal) :
    (i.recordSignal s).lastSignal = s := TerminationSignal.fromNumber_number s

end Interrupt

end Ratect
