import Ratect.Channel
import Ratect.Transition

/-! # Stdin, lent to one container after another

The one reader of stdin and the pumps it is lent to.  The reader is a thread that reserves the one
place of a channel, reads the source, and fills the place.  A pump locks the channel's receiving
end and copies what it receives into its container, until the input ends, a write fails, or it is
aborted at whatever it waits for.

`step` interleaves them in every way: each of the thread's steps and of every pump's steps is an
event of its own.  `received` logs what each pump's receives were answered.  `Sound` is the
invariant of every run, and `stdin_handed_over` what it says of the hand-over. -/

namespace Ratect.Stdin

open Transition (Reachable Logged run)

/-- One read of the source: the bytes it returned, none at its end of input, or its error. -/
inductive ReadResult where
  | ok (chunk : List UInt8)
  | interrupted
  | wouldBlock
  | failed
deriving DecidableEq

/-- What the thread hands over. -/
inductive Input where
  | data (chunk : List UInt8)
  | inputEnd
deriving DecidableEq

/-- Where the reader's thread stands: waiting for a place, in a read, with what the read returned,
out of its loop, and gone with its sender. -/
inductive Thread where
  | reserving
  | reading
  | handling (result : ReadResult)
  | leaving
  | ended
deriving DecidableEq

/-- Where a pump stands: the awaits of `forward`. -/
inductive Pump where
  | unstarted
  | locking
  | receiving
  | writing (chunk : List UInt8)
  | shuttingDown
  | ended
deriving DecidableEq

/-- The thread, how often the source has been read, the channel, the lock on its receiving end, the
pumps, and what each of their receives was answered. -/
structure StdinReader where
  thread : Thread
  reads : ℕ
  channel : Channel Input
  inputs : Option ℕ
  pumps : ℕ → Pump
  received : List (ℕ × Option Input)

/-- `StdinReader::spawn`. -/
def spawn : StdinReader where
  thread := .reserving
  reads := 0
  channel := .bounded 1
  inputs := none
  pumps := fun _ => .unstarted
  received := []

/-- One step of the thread, or of one of the pumps. -/
inductive Event where
  | reserve
  | read
  | handle
  | exit
  | start (pump : ℕ)
  | lock (pump : ℕ)
  | recv (pump : ℕ)
  | written (pump : ℕ) (ok : Bool)
  | shutdown (pump : ℕ)
  | abort (pump : ℕ)
deriving DecidableEq

namespace StdinReader

/-- The body of the thread's loop, once the read has returned. -/
def handle (terminal : Bool) (s : StdinReader) : ReadResult → StdinReader
  | .ok [] =>
      { s with
        channel := s.channel.send .inputEnd
        thread := if terminal then .reserving else .leaving }
  | .ok (byte :: chunk) =>
      { s with channel := s.channel.send (.data (byte :: chunk)), thread := .reserving }
  -- The permit is dropped unused, and the place is free again.
  | .interrupted => { s with channel := s.channel.release, thread := .reserving }
  | .wouldBlock => { s with channel := s.channel.release, thread := .reserving }
  | .failed => { s with channel := s.channel.send .inputEnd, thread := .leaving }

/-- The pump goes on there. -/
def setPump (s : StdinReader) (i : ℕ) (pump : Pump) : StdinReader :=
  { s with pumps := Function.update s.pumps i pump }

/-- The pump is over, and drops the lock if it has it. -/
def endPump (s : StdinReader) (i : ℕ) : StdinReader :=
  { s.setPump i .ended with inputs := if s.inputs = some i then none else s.inputs }

end StdinReader

/-- Where `forward` goes on with the answer of `recv`. -/
def afterRecv : Option Input → Pump
  | some (.data chunk) => .writing chunk
  | _ => .shuttingDown

/-- `source k` is what the `k`th read of the source returns; nothing where the event cannot
happen. -/
def step (source : ℕ → ReadResult) (terminal : Bool) (s : StdinReader) : Event → Option StdinReader
  | .reserve =>
      if s.thread = .reserving then
        s.channel.reserve.map fun channel => { s with channel := channel, thread := .reading }
      else none
  | .read =>
      if s.thread = .reading then
        some { s with thread := .handling (source s.reads), reads := s.reads + 1 }
      else none
  | .handle =>
      match s.thread with
      | .handling result => some (s.handle terminal result)
      | _ => none
  | .exit =>
      if s.thread = .leaving then
        some { s with channel := s.channel.close, thread := .ended } else none
  | .start i => if s.pumps i = .unstarted then some (s.setPump i .locking) else none
  | .lock i =>
      if s.pumps i = .locking ∧ s.inputs = none then
        some { s.setPump i .receiving with inputs := some i }
      else none
  | .recv i =>
      if s.pumps i = .receiving then
        s.channel.recv.map fun (answer, channel) =>
          { s.setPump i (afterRecv answer) with
            channel := channel
            received := s.received ++ [(i, answer)] }
      else none
  | .written i ok =>
      match s.pumps i with
      | .writing _ => some (s.setPump i (if ok then .receiving else .shuttingDown))
      | _ => none
  | .shutdown i => if s.pumps i = .shuttingDown then some (s.endPump i) else none
  | .abort i =>
      if s.pumps i = .unstarted ∨ s.pumps i = .ended then none else some (s.endPump i)

/-! ### What is read and what is received -/

/-- What a read hands over, if anything. -/
def inputOf : ReadResult → Option Input
  | .ok [] => some .inputEnd
  | .ok (byte :: chunk) => some (.data (byte :: chunk))
  | .interrupted => none
  | .wouldBlock => none
  | .failed => some .inputEnd

/-- The chunk of an input. -/
def chunkOf : Input → Option (List UInt8)
  | .data chunk => some chunk
  | .inputEnd => none

/-- What the first reads of the source hand over, in order. -/
def inputsRead (source : ℕ → ReadResult) (reads : ℕ) : List Input :=
  (List.range reads).filterMap fun k => inputOf (source k)

/-- The source's chunks, as far as it has been read. -/
def chunksRead (source : ℕ → ReadResult) (reads : ℕ) : List (List UInt8) :=
  (inputsRead source reads).filterMap chunkOf

namespace StdinReader

/-- What the pumps received, in order. -/
def inputsReceived (s : StdinReader) : List Input := s.received.filterMap Prod.snd

/-- The chunks the pumps received, in order. -/
def chunksReceived (s : StdinReader) : List (List UInt8) := s.inputsReceived.filterMap chunkOf

end StdinReader

/-! ### What a step can do -/

variable {source : ℕ → ReadResult} {terminal : Bool} {s s' : StdinReader} {e : Event}

/-- A step of the thread. -/
inductive ThreadStep (source : ℕ → ReadResult) (terminal : Bool) (s : StdinReader) :
    StdinReader → Prop
  | reserve {channel : Channel Input} (hthread : s.thread = .reserving)
      (hreserve : s.channel.reserve = some channel) :
      ThreadStep source terminal s { s with channel := channel, thread := .reading }
  | read (hthread : s.thread = .reading) :
      ThreadStep source terminal s
        { s with thread := .handling (source s.reads), reads := s.reads + 1 }
  | handle {result : ReadResult} (hthread : s.thread = .handling result) :
      ThreadStep source terminal s (s.handle terminal result)
  | exit (hthread : s.thread = .leaving) :
      ThreadStep source terminal s { s with channel := s.channel.close, thread := .ended }

/-- A step of a pump, and where it leaves the lock. -/
inductive PumpStep (s : StdinReader) (i : ℕ) : StdinReader → Prop
  | start (hpump : s.pumps i = .unstarted) : PumpStep s i (s.setPump i .locking)
  | lock (hpump : s.pumps i = .locking) (hfree : s.inputs = none) :
      PumpStep s i { s.setPump i .receiving with inputs := some i }
  | recv {answer : Option Input} {channel : Channel Input} (hpump : s.pumps i = .receiving)
      (hrecv : s.channel.recv = some (answer, channel)) :
      PumpStep s i
        { s.setPump i (afterRecv answer) with
          channel := channel
          received := s.received ++ [(i, answer)] }
  | written {chunk : List UInt8} (hpump : s.pumps i = .writing chunk) (ok : Bool) :
      PumpStep s i (s.setPump i (if ok then .receiving else .shuttingDown))
  | finish (hpump : s.pumps i ≠ .unstarted) : PumpStep s i (s.endPump i)

theorem step_cases (h : step source terminal s e = some s') :
    ThreadStep source terminal s s' ∨ ∃ i, PumpStep s i s' := by
  cases e with
  | reserve =>
      obtain ⟨hthread, h⟩ := Option.ite_none_right_eq_some.mp h
      obtain ⟨channel, hreserve, rfl⟩ := Option.map_eq_some_iff.mp h
      exact .inl (.reserve hthread hreserve)
  | read =>
      obtain ⟨hthread, h⟩ := Option.ite_none_right_eq_some.mp h
      obtain rfl := Option.some.inj h
      exact .inl (.read hthread)
  | handle =>
      cases hthread : s.thread with
      | handling result =>
          simp only [step, hthread] at h
          obtain rfl := Option.some.inj h
          exact .inl (.handle hthread)
      | _ => simp [step, hthread] at h
  | exit =>
      obtain ⟨hthread, h⟩ := Option.ite_none_right_eq_some.mp h
      obtain rfl := Option.some.inj h
      exact .inl (.exit hthread)
  | start i =>
      obtain ⟨hpump, h⟩ := Option.ite_none_right_eq_some.mp h
      obtain rfl := Option.some.inj h
      exact .inr ⟨i, .start hpump⟩
  | lock i =>
      obtain ⟨⟨hpump, hfree⟩, h⟩ := Option.ite_none_right_eq_some.mp h
      obtain rfl := Option.some.inj h
      exact .inr ⟨i, .lock hpump hfree⟩
  | recv i =>
      obtain ⟨hpump, h⟩ := Option.ite_none_right_eq_some.mp h
      obtain ⟨⟨answer, channel⟩, hrecv, rfl⟩ := Option.map_eq_some_iff.mp h
      exact .inr ⟨i, .recv hpump hrecv⟩
  | written i ok =>
      cases hpump : s.pumps i with
      | writing chunk =>
          simp only [step, hpump] at h
          obtain rfl := Option.some.inj h
          exact .inr ⟨i, .written hpump ok⟩
      | _ => simp [step, hpump] at h
  | shutdown i =>
      obtain ⟨hpump, h⟩ := Option.ite_none_right_eq_some.mp h
      obtain rfl := Option.some.inj h
      exact .inr ⟨i, .finish (by simp [hpump])⟩
  | abort i =>
      obtain ⟨hpump, h⟩ := Option.ite_none_left_eq_some.mp h
      obtain rfl := Option.some.inj h
      exact .inr ⟨i, .finish fun hu => hpump (.inl hu)⟩

/-! ### The reader's side -/

/-- The thread holds a reserved place. -/
def Thread.held : Thread → ℕ
  | .reading => 1
  | .handling _ => 1
  | _ => 0

/-- What the thread has read and not yet sent. -/
def Thread.inHand : Thread → List Input
  | .handling result => (inputOf result).toList
  | _ => []

/-- A read after which the thread leaves its loop. -/
def Final (terminal : Bool) (result : ReadResult) : Prop :=
  result = .failed ∨ (result = .ok [] ∧ terminal = false)

instance (terminal : Bool) (result : ReadResult) : Decidable (Final terminal result) :=
  inferInstanceAs (Decidable (_ ∨ _))

/-- The thread reads no more. -/
def Thread.Stopping (terminal : Bool) : Thread → Prop
  | .handling result => Final terminal result
  | .leaving => True
  | .ended => True
  | _ => False

/-- The one place is free, reserved or filled, and what was read has been received, is in the
channel, or is in the thread's hand. -/
structure Account (source : ℕ → ReadResult) (terminal : Bool) (s : StdinReader) : Prop where
  places : s.channel.places + s.thread.held = 1
  inputs : inputsRead source s.reads = s.inputsReceived ++ (s.channel.queue ++ s.thread.inHand)
  last : ∀ result, s.thread = .handling result → ∃ k, s.reads = k + 1 ∧ source k = result
  stops : ∀ k < s.reads, Final terminal (source k) → k + 1 = s.reads ∧ s.thread.Stopping terminal
  stopped : s.thread.Stopping terminal → ∃ k, s.reads = k + 1 ∧ Final terminal (source k)
  closed : s.channel.closed = true ↔ s.thread = .ended

theorem inputsRead_succ (source : ℕ → ReadResult) (reads : ℕ) :
    inputsRead source (reads + 1) = inputsRead source reads ++ (inputOf (source reads)).toList := by
  unfold inputsRead
  rw [List.range_succ, List.filterMap_append]
  cases h : inputOf (source reads) <;> simp [h]

theorem inputOf_of_final {result : ReadResult} (h : Final terminal result) :
    inputOf result = some .inputEnd := by
  rcases h with rfl | ⟨rfl, -⟩ <;> rfl

/-- The end of an iteration changes the channel and where the thread stands, and nothing else. -/
theorem handle_frame (terminal : Bool) (s : StdinReader) (result : ReadResult) :
    (s.handle terminal result).reads = s.reads ∧
      (s.handle terminal result).received = s.received ∧
      (s.handle terminal result).inputs = s.inputs ∧
      (s.handle terminal result).pumps = s.pumps := by
  rcases result with _ | _ | _ | _
  · rename_i chunk
    cases chunk <;> exact ⟨rfl, rfl, rfl, rfl⟩
  · exact ⟨rfl, rfl, rfl, rfl⟩
  · exact ⟨rfl, rfl, rfl, rfl⟩
  · exact ⟨rfl, rfl, rfl, rfl⟩

/-- The reserved place is filled with what was read, or free again. -/
theorem handle_channel (terminal : Bool) (s : StdinReader) (result : ReadResult) :
    (s.handle terminal result).channel.places = s.channel.places + 1 ∧
      (s.handle terminal result).channel.queue = s.channel.queue ++ (inputOf result).toList ∧
      (s.handle terminal result).channel.closed = s.channel.closed := by
  rcases result with chunk | _ | _ | _
  · cases chunk <;> exact ⟨Channel.places_send, rfl, rfl⟩
  · exact ⟨Channel.places_release, (List.append_nil _).symm, rfl⟩
  · exact ⟨Channel.places_release, (List.append_nil _).symm, rfl⟩
  · exact ⟨Channel.places_send, rfl, rfl⟩

/-- The thread leaves its loop after a final read, and goes round it after any other. -/
theorem handle_thread (terminal : Bool) (s : StdinReader) (result : ReadResult) :
    (s.handle terminal result).thread = if Final terminal result then .leaving else .reserving := by
  rcases result with (_ | ⟨byte, chunk⟩) | _ | _ | _
  · cases terminal <;> simp [StdinReader.handle, Final]
  · simp [StdinReader.handle, Final]
  · simp [StdinReader.handle, Final]
  · simp [StdinReader.handle, Final]
  · simp [StdinReader.handle, Final]

namespace Account

theorem start (source : ℕ → ReadResult) (terminal : Bool) : Account source terminal spawn where
  places := rfl
  inputs := rfl
  last := by
    intro result h
    cases h
  stops := by
    intro k hk
    cases hk
  stopped := False.elim
  closed := by simp [spawn, Channel.bounded]

/-- Nothing is held that no pump has received, but for one input. -/
theorem length_le (h : Account source terminal s) :
    (s.channel.queue ++ s.thread.inHand).length ≤ 1 := by
  have hplaces := h.places
  have hhand : s.thread.inHand.length ≤ s.thread.held := by
    cases s.thread with
    | handling result => cases hi : inputOf result <;> simp [Thread.inHand, Thread.held, hi]
    | _ => simp [Thread.inHand, Thread.held]
  unfold Channel.places at hplaces
  rw [List.length_append]
  omega

/-- A thread that stands before its next read has had no final one. -/
theorem not_final (h : Account source terminal s) (hgoing : ¬ s.thread.Stopping terminal) {k : ℕ}
    (hk : k < s.reads) : ¬ Final terminal (source k) :=
  fun hfinal => hgoing (h.stops k hk hfinal).2

theorem threadStep (h : Account source terminal s) (hstep : ThreadStep source terminal s s') :
    Account source terminal s' := by
  cases hstep with
  | @reserve channel hthread hreserve =>
      have hplaces := Channel.places_reserve hreserve
      have hgoing : ¬ s.thread.Stopping terminal := by simp [hthread, Thread.Stopping]
      obtain ⟨hfree, rfl⟩ := Channel.reserve_eq_some.mp hreserve
      refine ⟨?_, ?_, ?_, ?_, ?_, ?_⟩
      · have := h.places
        simp only [hthread, Thread.held] at this ⊢
        omega
      · have := h.inputs
        simp only [hthread, Thread.inHand] at this ⊢
        exact this
      · intro result hr
        cases hr
      · intro k hk hfinal
        exact absurd hfinal (h.not_final hgoing hk)
      · exact False.elim
      · have := h.closed
        rw [hthread] at this
        simpa using this
  | read hthread =>
      have hgoing : ¬ s.thread.Stopping terminal := by simp [hthread, Thread.Stopping]
      refine ⟨?_, ?_, ?_, ?_, ?_, ?_⟩
      · have := h.places
        simp only [hthread, Thread.held] at this ⊢
        exact this
      · have := h.inputs
        simp only [hthread, Thread.inHand, List.append_nil] at this ⊢
        rw [inputsRead_succ, this, List.append_assoc]
        rfl
      · intro result hr
        exact ⟨s.reads, rfl, Thread.handling.inj hr⟩
      · intro k hk hfinal
        rcases Nat.lt_succ_iff_lt_or_eq.mp hk with hk | rfl
        · exact absurd hfinal (h.not_final hgoing hk)
        · exact ⟨rfl, hfinal⟩
      · intro hfinal
        exact ⟨s.reads, rfl, hfinal⟩
      · have := h.closed
        rw [hthread] at this
        simpa using this
  | @handle result hthread =>
      obtain ⟨hreads, hreceived, -, -⟩ := handle_frame terminal s result
      obtain ⟨hplaces, hqueue, hclosed⟩ := handle_channel terminal s result
      have hthread' := handle_thread terminal s result
      obtain ⟨k, hk, hresult⟩ := h.last result hthread
      refine ⟨?_, ?_, ?_, ?_, ?_, ?_⟩
      · have := h.places
        rw [hthread] at this
        rw [hplaces, hthread']
        split <;> exact this
      · have := h.inputs
        rw [hthread] at this
        have hhand : (s.handle terminal result).thread.inHand = [] := by
          rw [hthread']
          split <;> rfl
        have hinputs : (s.handle terminal result).inputsReceived = s.inputsReceived := by
          unfold StdinReader.inputsReceived
          rw [hreceived]
        rw [hreads, this, hhand, hqueue, List.append_nil, hinputs]
        rfl
      · intro r hr
        rw [hthread'] at hr
        split at hr <;> cases hr
      · intro j hj hfinal
        rw [hreads] at hj ⊢
        obtain ⟨hlast, hstop⟩ := h.stops j hj hfinal
        rw [hthread] at hstop
        have hfinal' : Final terminal result := hstop
        rw [hthread', if_pos hfinal']
        exact ⟨hlast, trivial⟩
      · intro hstop
        rw [hthread'] at hstop
        split at hstop
        · rename_i hfinal
          exact ⟨k, hreads.trans hk, hresult ▸ hfinal⟩
        · exact hstop.elim
      · have := h.closed
        rw [hthread] at this
        rw [hclosed, hthread']
        split <;> simpa using this
  | exit hthread =>
      refine ⟨?_, ?_, ?_, ?_, ?_, ?_⟩
      · have := h.places
        rw [hthread] at this
        exact this
      · have := h.inputs
        rw [hthread] at this
        exact this
      · intro result hr
        cases hr
      · intro k hk hfinal
        exact ⟨(h.stops k hk hfinal).1, trivial⟩
      · intro _
        exact h.stopped (hthread ▸ trivial)
      · simp [Channel.close]

theorem pumpStep {i : ℕ} (h : Account source terminal s) (hstep : PumpStep s i s') :
    Account source terminal s' := by
  cases hstep with
  | start _ => exact ⟨h.places, h.inputs, h.last, h.stops, h.stopped, h.closed⟩
  | lock _ _ => exact ⟨h.places, h.inputs, h.last, h.stops, h.stopped, h.closed⟩
  | @recv answer channel _ hrecv =>
      obtain ⟨a, rfl, hqueue, hclosed, hplaces⟩ | ⟨rfl, -, -, rfl⟩ := Channel.recv_cases hrecv
      · refine ⟨?_, ?_, h.last, h.stops, h.stopped, ?_⟩
        · exact hplaces ▸ h.places
        · have := h.inputs
          rw [hqueue] at this
          simpa [StdinReader.inputsReceived, StdinReader.setPump] using this
        · exact hclosed ▸ h.closed
      · refine ⟨h.places, ?_, h.last, h.stops, h.stopped, h.closed⟩
        simpa [StdinReader.inputsReceived, StdinReader.setPump] using h.inputs
  | written _ _ => exact ⟨h.places, h.inputs, h.last, h.stops, h.stopped, h.closed⟩
  | finish _ => exact ⟨h.places, h.inputs, h.last, h.stops, h.stopped, h.closed⟩

theorem reachable (h : Reachable (step source terminal) spawn s) : Account source terminal s := by
  refine h.invariant (P := Account source terminal) (start source terminal) ?_
  intro s e s' _ hs he
  obtain hstep | ⟨i, hstep⟩ := step_cases he
  · exact hs.threadStep hstep
  · exact hs.pumpStep hstep

end Account

/-! ### The pumps' side -/

/-- The pump has the lock. -/
def Pump.Holds : Pump → Prop
  | .receiving => True
  | .writing _ => True
  | .shuttingDown => True
  | _ => False

/-- An answer after which the pump goes on. -/
def isData : Option Input → Bool
  | some (.data _) => true
  | _ => false

/-- The pump takes nothing more. -/
def Pump.Done (pump : Pump) : Prop := pump = .shuttingDown ∨ pump = .ended

/-- The lock is one pump's, and the end of the input is the last that a pump is told. -/
structure Lent (s : StdinReader) : Prop where
  lock : ∀ i, s.inputs = some i ↔ (s.pumps i).Holds
  done : ∀ i answer, (i, answer) ∈ s.received → isData answer = false → (s.pumps i).Done
  log : Logged (fun before entry => ∀ answer, (entry.1, answer) ∈ before → isData answer = true)
    s.received

namespace Lent

variable {i : ℕ} {pump : Pump}

theorem start : Lent spawn where
  lock := by simp [spawn, Pump.Holds]
  done := by simp [spawn]
  log := Transition.logged_nil

theorem lock_setPump (h : Lent s) (hpump : (s.pumps i).Holds ↔ pump.Holds) (j : ℕ) :
    s.inputs = some j ↔ ((s.setPump i pump).pumps j).Holds := by
  rw [h.lock j]
  by_cases hj : j = i
  · subst hj
    simpa [StdinReader.setPump] using hpump
  · simp [StdinReader.setPump, hj]

/-- A pump that is not done has been told nothing but data. -/
theorem isData_of_not_done (h : Lent s) (hpump : ¬ (s.pumps i).Done) (answer : Option Input)
    (hmem : (i, answer) ∈ s.received) : isData answer = true := by
  by_contra hdata
  exact hpump (h.done i answer hmem (Bool.not_eq_true _ ▸ hdata))

theorem done_setPump (h : Lent s) (hpump : (s.pumps i).Done → pump.Done) (j : ℕ)
    (answer : Option Input) (hmem : (j, answer) ∈ s.received) (hdata : isData answer = false) :
    ((s.setPump i pump).pumps j).Done := by
  have hdone := h.done j answer hmem hdata
  by_cases hj : j = i
  · subst hj
    simpa [StdinReader.setPump] using hpump hdone
  · simpa [StdinReader.setPump, hj] using hdone

theorem threadStep (h : Lent s) (hstep : ThreadStep source terminal s s') : Lent s' := by
  cases hstep with
  | reserve _ _ => exact ⟨h.lock, h.done, h.log⟩
  | read _ => exact ⟨h.lock, h.done, h.log⟩
  | @handle result _ =>
      obtain ⟨-, hreceived, hinputs, hpumps⟩ := handle_frame terminal s result
      refine ⟨?_, ?_, ?_⟩
      · rw [hinputs, hpumps]
        exact h.lock
      · rw [hreceived, hpumps]
        exact h.done
      · rw [hreceived]
        exact h.log
  | exit _ => exact ⟨h.lock, h.done, h.log⟩

theorem pumpStep (h : Lent s) (hstep : PumpStep s i s') : Lent s' := by
  cases hstep with
  | start hpump =>
      refine ⟨h.lock_setPump ?_, h.done_setPump ?_, h.log⟩
      · simp [hpump, Pump.Holds]
      · simp [hpump, Pump.Done]
  | lock hpump hfree =>
      refine ⟨?_, h.done_setPump ?_, h.log⟩
      · intro j
        have hj := h.lock j
        rw [hfree] at hj
        by_cases hij : i = j
        · subst hij
          simp [StdinReader.setPump, Pump.Holds]
        · simpa [StdinReader.setPump, hij, Ne.symm hij] using hj
      · simp [hpump, Pump.Done]
  | @recv answer channel hpump hrecv =>
      have hundone : ¬ (s.pumps i).Done := by simp [hpump, Pump.Done]
      refine ⟨h.lock_setPump ?_, ?_, ?_⟩
      · rcases answer with _ | _ | _ <;> simp [hpump, afterRecv, Pump.Holds]
      · intro j answer' hmem hdata
        rcases List.mem_append.mp hmem with hmem | hmem
        · exact h.done_setPump (fun hdone => absurd hdone hundone) j answer' hmem hdata
        · obtain ⟨rfl, rfl⟩ := Prod.mk.inj (List.mem_singleton.mp hmem)
          rcases answer' with _ | _ | _
          · simp [StdinReader.setPump, afterRecv, Pump.Done]
          · cases hdata
          · simp [StdinReader.setPump, afterRecv, Pump.Done]
      · exact h.log.concat (h.isData_of_not_done hundone)
  | written hpump ok =>
      refine ⟨h.lock_setPump ?_, h.done_setPump ?_, h.log⟩
      · cases ok <;> simp [hpump, Pump.Holds]
      · simp [hpump, Pump.Done]
  | finish hpump =>
      refine ⟨?_, h.done_setPump fun _ => .inr rfl, h.log⟩
      intro j
      have hj := h.lock j
      by_cases hij : j = i
      · subst hij
        simp [StdinReader.endPump, StdinReader.setPump, Pump.Holds]
      · by_cases hinputs : s.inputs = some i
        · rw [hinputs] at hj
          simpa [StdinReader.endPump, StdinReader.setPump, hij, hinputs, Ne.symm hij] using hj
        · simpa [StdinReader.endPump, StdinReader.setPump, hij, hinputs] using hj

theorem reachable (h : Reachable (step source terminal) spawn s) : Lent s := by
  refine h.invariant (P := Lent) start ?_
  intro s e s' _ hs he
  obtain hstep | ⟨i, hstep⟩ := step_cases he
  · exact hs.threadStep hstep
  · exact hs.pumpStep hstep

/-- The lock is free where no other pump is running. -/
theorem free_of_alone (h : Lent s) (hpump : s.pumps i = .locking)
    (halone : ∀ j, j ≠ i → s.pumps j = .unstarted ∨ s.pumps j = .ended) : s.inputs = none := by
  cases hinputs : s.inputs with
  | none => rfl
  | some j =>
      have hholds := (h.lock j).mp hinputs
      by_cases hj : j = i
      · rw [hj, hpump] at hholds
        exact hholds.elim
      · rcases halone j hj with hj | hj <;>
          · rw [hj] at hholds
            exact hholds.elim

end Lent

/-! ### The hand-over -/

namespace Account

/-- What is in the channel is the last that was read. -/
theorem queue_last (h : Account source terminal s) {k : ℕ} {a x : Input} {rest : List Input}
    (hk : s.reads = k + 1) (hx : inputOf (source k) = some x)
    (hqueue : s.channel.queue = a :: rest) : a = x ∧ rest = [] := by
  have hlength := h.length_le
  have hinputs := h.inputs
  rw [hk, inputsRead_succ, hx, hqueue] at hinputs
  rw [hqueue, List.cons_append, List.length_cons] at hlength
  have hnil : rest ++ s.thread.inHand = [] := List.length_eq_zero_iff.mp (by omega)
  rw [List.cons_append, hnil] at hinputs
  obtain ⟨-, hlast⟩ := List.append_inj' hinputs rfl
  exact ⟨(List.singleton_inj.mp hlast).symm, (List.append_eq_nil_iff.mp hnil).1⟩

/-- The chunks the pumps have received are the source's first ones; at most one is missing. -/
theorem chunks (h : Account source terminal s) :
    s.chunksReceived <+: chunksRead source s.reads ∧
      (chunksRead source s.reads).length ≤ s.chunksReceived.length + 1 := by
  have heq : chunksRead source s.reads =
      s.chunksReceived ++ (s.channel.queue ++ s.thread.inHand).filterMap chunkOf := by
    unfold chunksRead StdinReader.chunksReceived
    rw [h.inputs, List.filterMap_append]
  have hle := List.length_filterMap_le chunkOf (s.channel.queue ++ s.thread.inHand)
  have hone := h.length_le
  refine ⟨⟨_, heq.symm⟩, ?_⟩
  rw [heq, List.length_append]
  omega

/-- Once the input has ended for good, every chunk of it has been received. -/
theorem chunks_of_stopping (h : Account source terminal s) (hstop : s.thread.Stopping terminal) :
    s.chunksReceived = chunksRead source s.reads := by
  obtain ⟨k, hk, hfinal⟩ := h.stopped hstop
  have hend : inputOf (source k) = some .inputEnd := inputOf_of_final hfinal
  have hinputs := h.inputs
  have hlength := h.length_le
  rw [hk, inputsRead_succ, hend] at hinputs
  unfold chunksRead StdinReader.chunksReceived
  rw [hk, inputsRead_succ, hend]
  cases hheld : s.channel.queue ++ s.thread.inHand with
  | nil =>
      rw [hheld, List.append_nil] at hinputs
      rw [← hinputs]
  | cons a rest =>
      rw [hheld, List.length_cons] at hlength
      have hrest : rest = [] := List.length_eq_zero_iff.mp (by omega)
      rw [hheld, hrest] at hinputs
      obtain ⟨hreceived, -⟩ := List.append_inj' hinputs rfl
      rw [← hreceived]
      simp [chunkOf]

end Account

theorem reads_le_of_step (h : step source terminal s e = some s') : s.reads ≤ s'.reads := by
  obtain hstep | ⟨i, hstep⟩ := step_cases h
  · cases hstep with
    | read _ => exact Nat.le_succ _
    | handle _ => exact (handle_frame _ _ _).1.ge
    | _ => exact le_rfl
  · cases hstep <;> exact le_rfl

theorem reads_le (h : Reachable (step source terminal) s s') : s.reads ≤ s'.reads :=
  h.invariant (P := fun t => s.reads ≤ t.reads) le_rfl fun _ _ _ _ hle hstep =>
    hle.trans (reads_le_of_step hstep)

/-- After a final read nothing is read, and nothing but the end is received. -/
theorem nothing_after_final (h : Reachable (step source terminal) spawn s)
    (h' : Reachable (step source terminal) s s') {k : ℕ} (hk : k < s.reads)
    (hfinal : Final terminal (source k)) :
    s'.reads = s.reads ∧ s'.chunksReceived = s.chunksReceived := by
  have hs := Account.reachable h
  have hs' := Account.reachable (h.trans h')
  obtain ⟨hlast, hstop⟩ := hs.stops k hk hfinal
  obtain ⟨hlast', hstop'⟩ := hs'.stops k (hk.trans_le (reads_le h')) hfinal
  have hreads : s'.reads = s.reads := hlast'.symm.trans hlast
  refine ⟨hreads, ?_⟩
  rw [hs.chunks_of_stopping hstop, hs'.chunks_of_stopping hstop', hreads]

/-- An end of input, or of the reader, ends the pump that is told it. -/
theorem recv_ends {i : ℕ} {answer : Option Input} {channel : Channel Input}
    (hpump : s.pumps i = .receiving) (hrecv : s.channel.recv = some (answer, channel))
    (hdata : isData answer = false) :
    ∃ s', step source terminal s (.recv i) = some s' ∧ s'.pumps i = .shuttingDown := by
  refine ⟨_, by simp [step, hpump, hrecv]; rfl, ?_⟩
  rcases answer with _ | _ | _
  · simp [StdinReader.setPump, afterRecv]
  · cases hdata
  · simp [StdinReader.setPump, afterRecv]

/-- What is left to do after a final read, by the thread and by the pump itself: nothing of it waits
for the source. -/
def Event.Finishing (i : ℕ) (e : Event) : Prop :=
  e = .handle ∨ e = .exit ∨ e = .lock i ∨ e = .recv i

/-- The pump comes to its end without another read. -/
def Ends (source : ℕ → ReadResult) (terminal : Bool) (s : StdinReader) (i : ℕ) : Prop :=
  ∃ events s', (∀ e ∈ events, e.Finishing i) ∧
    run (step source terminal) s events = some s' ∧ s'.pumps i = .shuttingDown

variable {i : ℕ}

/-- A step before the rest. -/
theorem Ends.cons (hfinishing : e.Finishing i) (hstep : step source terminal s e = some s')
    (h : Ends source terminal s' i) : Ends source terminal s i := by
  obtain ⟨events, t, hall, hrun, hpump⟩ := h
  refine ⟨e :: events, t, List.forall_mem_cons.mpr ⟨hfinishing, hall⟩, ?_, hpump⟩
  unfold run
  rw [hstep, Option.bind_some]
  exact hrun

/-- The pump only has to take its answer. -/
theorem Ends.recv {answer : Option Input} {channel : Channel Input} (hpump : s.pumps i = .receiving)
    (hrecv : s.channel.recv = some (answer, channel)) (hdata : isData answer = false) :
    Ends source terminal s i := by
  obtain ⟨s', hstep, hdone⟩ :
      ∃ s', step source terminal s (.recv i) = some s' ∧ s'.pumps i = .shuttingDown :=
    recv_ends hpump hrecv hdata
  exact Ends.cons (.inr (.inr (.inr rfl))) hstep ⟨[], s', by simp, rfl, hdone⟩

namespace Account

/-- Once the thread is out of its loop, a pump is told so, or that the channel is closed. -/
theorem ends_of_left (h : Account source terminal s)
    (hthread : s.thread = .leaving ∨ s.thread = .ended) (hpump : s.pumps i = .receiving) :
    Ends source terminal s i := by
  have hstop : s.thread.Stopping terminal := by
    rcases hthread with hthread | hthread <;> simp [hthread, Thread.Stopping]
  obtain ⟨k, hk, hfinal⟩ := h.stopped hstop
  cases hqueue : s.channel.queue with
  | cons a rest =>
      obtain ⟨rfl, -⟩ := h.queue_last hk (inputOf_of_final hfinal) hqueue
      exact Ends.recv hpump (Channel.recv_cons hqueue) rfl
  | nil =>
      rcases hthread with hthread | hthread
      · have hexit : step source terminal s .exit =
            some { s with channel := s.channel.close, thread := .ended } := by simp [step, hthread]
        exact Ends.cons (.inr (.inl rfl)) hexit
          (Ends.recv hpump (Channel.recv_closed hqueue rfl) rfl)
      · exact Ends.recv hpump (Channel.recv_closed hqueue (h.closed.mpr hthread)) rfl

/-- Once the input has ended for good, a receiving pump ends. -/
theorem ends_of_receiving (h : Account source terminal s) (hstop : s.thread.Stopping terminal)
    (hpump : s.pumps i = .receiving) : Ends source terminal s i := by
  cases hthread : s.thread with
  | reserving => exact (hthread ▸ hstop : Thread.Stopping terminal .reserving).elim
  | reading => exact (hthread ▸ hstop : Thread.Stopping terminal .reading).elim
  | leaving => exact h.ends_of_left (.inl hthread) hpump
  | ended => exact h.ends_of_left (.inr hthread) hpump
  | handling result =>
      have hfinal : Final terminal result := by
        rw [hthread] at hstop
        exact hstop
      have hstep : step source terminal s .handle = some (s.handle terminal result) := by
        simp [step, hthread]
      obtain ⟨-, -, -, hpumps⟩ := handle_frame terminal s result
      have hleaving : (s.handle terminal result).thread = .leaving := by
        rw [handle_thread, if_pos hfinal]
      refine Ends.cons (.inl rfl) hstep ?_
      exact (h.threadStep (.handle hthread)).ends_of_left (.inl hleaving) (hpumps ▸ hpump)

/-- A terminal's end of input ends the pump that receives it, and the terminal is read again. -/
theorem read_again (h : Account source true s) {k : ℕ} (hk : s.reads = k + 1)
    (hend : source k = .ok []) (hstep : step source true s (.recv i) = some s') :
    s'.received = s.received ++ [(i, some .inputEnd)] ∧ s'.pumps i = .shuttingDown ∧
      ∃ s'', run (step source true) s' [.reserve, .read] = some s'' ∧ s''.reads = s'.reads + 1 := by
  have hgoing : ¬ s.thread.Stopping true := by
    intro hstop
    obtain ⟨j, hj, hfinal⟩ := h.stopped hstop
    obtain rfl : k = j := by omega
    simp [Final, hend] at hfinal
  obtain ⟨hpump, hstep⟩ := Option.ite_none_right_eq_some.mp hstep
  obtain ⟨⟨answer, channel⟩, hrecv, rfl⟩ := Option.map_eq_some_iff.mp hstep
  cases hqueue : s.channel.queue with
  | nil =>
      obtain ⟨a, -, hcons, -, -⟩ | ⟨-, -, hclosed, -⟩ := Channel.recv_cases hrecv
      · rw [hqueue] at hcons
        cases hcons
      · exact absurd (h.closed.mp hclosed ▸ trivial) hgoing
  | cons a rest =>
      obtain ⟨rfl, rfl⟩ := h.queue_last hk (hend ▸ rfl : inputOf (source k) = some .inputEnd) hqueue
      rw [Channel.recv_cons hqueue] at hrecv
      obtain ⟨rfl, rfl⟩ := Prod.mk.inj (Option.some.inj hrecv)
      have hthread : s.thread = .reserving := by
        have hplaces := h.places
        unfold Channel.places at hplaces
        rw [hqueue, List.length_singleton] at hplaces
        cases hthread : s.thread with
        | reserving => rfl
        | leaving => exact absurd (hthread ▸ trivial) hgoing
        | ended => exact absurd (hthread ▸ trivial) hgoing
        | _ =>
            simp only [hthread, Thread.held] at hplaces
            omega
      refine ⟨rfl, by simp [StdinReader.setPump, afterRecv], ?_⟩
      simp [run, step, StdinReader.setPump, hthread, Channel.reserve]

end Account

/-- A pump that waits for its input, or for the lock where no other pump is running. -/
def StdinReader.Waiting (s : StdinReader) (i : ℕ) : Prop :=
  s.pumps i = .receiving ∨
    (s.pumps i = .locking ∧ ∀ j, j ≠ i → s.pumps j = .unstarted ∨ s.pumps j = .ended)

/-- Once the input has ended for good, a waiting pump ends. -/
theorem ends_of_waiting (h : Reachable (step source terminal) spawn s)
    (hstop : s.thread.Stopping terminal) (hpump : s.Waiting i) : Ends source terminal s i := by
  rcases hpump with hpump | ⟨hpump, halone⟩
  · exact (Account.reachable h).ends_of_receiving hstop hpump
  · have hfree := (Lent.reachable h).free_of_alone hpump halone
    have hlock : step source terminal s (.lock i) =
        some { s.setPump i .receiving with inputs := some i } := by simp [step, hpump, hfree]
    refine Ends.cons (.inr (.inr (.inl rfl))) hlock ?_
    exact (Account.reachable (h.next hlock)).ends_of_receiving hstop (by simp [StdinReader.setPump])

/-- Whatever the reads return, and however the pumps and the thread take their turns:

* what the pumps have received, in order, is what the source's first reads handed over, but for at
  most one input that no pump has received yet;
* once a pipe has ended, nothing more is read or received, and a pump that waits comes to its end
  without another read;
* a terminal's end of input is the last that the pump which receives it is told, and its reception
  ends that pump and has the terminal read again. -/
theorem stdin_handed_over (source : ℕ → ReadResult) (terminal : Bool) (s : StdinReader)
    (h : Reachable (step source terminal) spawn s) :
    (∃ waiting, inputsRead source s.reads = s.inputsReceived ++ waiting ∧ waiting.length ≤ 1) ∧
      s.chunksReceived <+: chunksRead source s.reads ∧
      (chunksRead source s.reads).length ≤ s.chunksReceived.length + 1 ∧
      (terminal = false → (∃ k < s.reads, source k = .ok []) →
        (∀ s', Reachable (step source terminal) s s' →
          s'.reads = s.reads ∧ s'.chunksReceived = s.chunksReceived) ∧
        ∀ i, s.Waiting i → Ends source terminal s i) ∧
      (terminal = true →
        (∀ before i later, s.received = before ++ (i, some .inputEnd) :: later →
          (s.pumps i).Done ∧ (∀ answer, (i, answer) ∈ before → isData answer = true) ∧
            ∀ answer, (i, answer) ∉ later) ∧
        ∀ k, s.reads = k + 1 → source k = .ok [] →
          ∀ i s', step source terminal s (.recv i) = some s' →
            s'.received = s.received ++ [(i, some .inputEnd)] ∧ s'.pumps i = .shuttingDown ∧
              ∃ s'', run (step source terminal) s' [.reserve, .read] = some s'' ∧
                s''.reads = s'.reads + 1) := by
  have haccount := Account.reachable h
  have hlent := Lent.reachable h
  obtain ⟨hpre, hlength⟩ := haccount.chunks
  refine ⟨⟨_, haccount.inputs, haccount.length_le⟩, hpre, hlength, ?_, ?_⟩
  · rintro hpipe ⟨k, hk, hend⟩
    have hfinal : Final terminal (source k) := .inr ⟨hend, hpipe⟩
    refine ⟨fun s' hs' => nothing_after_final h hs' hk hfinal, fun i hi => ?_⟩
    exact ends_of_waiting h (haccount.stops k hk hfinal).2 hi
  · rintro rfl
    refine ⟨?_, fun k hk hend i s' hstep => haccount.read_again hk hend hstep⟩
    intro before i later hlog
    refine ⟨?_, hlent.log before _ later hlog, ?_⟩
    · exact hlent.done i _ (hlog ▸ List.mem_append_right _ List.mem_cons_self) rfl
    · intro answer hmem
      obtain ⟨l₁, l₂, rfl⟩ := List.append_of_mem hmem
      have hlog' : s.received = (before ++ (i, some .inputEnd) :: l₁) ++ (i, answer) :: l₂ := by
        rw [hlog, List.append_assoc, List.cons_append]
      have hdata := hlent.log _ _ _ hlog' (some .inputEnd)
        (List.mem_append_right _ List.mem_cons_self)
      cases hdata

/-- A pipe of one line. -/
def pipe (k : ℕ) : ReadResult := if k = 0 then .ok [104, 105, 10] else .ok []

/-- The first pump takes the line and is aborted while it writes it; the pipe ends before the second
one has started, which ends at once. -/
theorem stdin_handed_over_pipe :
    ∃ s, Reachable (step pipe false) spawn s ∧ s.received = [(0, some (.data [104, 105, 10]))] ∧
      s.pumps 1 = .receiving ∧ Ends pipe false s 1 := by
  have hrun : (run (step pipe false) spawn
      [.reserve, .start 0, .lock 0, .read, .handle, .recv 0, .reserve, .abort 0, .read, .start 1,
        .lock 1]).map (fun s => (s.reads, s.received, s.pumps 1)) =
      some (2, [(0, some (.data [104, 105, 10]))], .receiving) := by decide
  obtain ⟨s, hs, hv⟩ := Transition.exists_reachable_of_run hrun
  obtain ⟨hreads, hreceived, hpump⟩ :
    s.reads = 2 ∧ s.received = [(0, some (.data [104, 105, 10]))] ∧
      s.pumps 1 = .receiving := by simpa using hv
  obtain ⟨-, -, -, hpipe, -⟩ := stdin_handed_over pipe false s hs
  obtain ⟨-, hends⟩ := hpipe rfl ⟨1, by omega, rfl⟩
  exact ⟨s, hs, hreceived, hpump, hends 1 (.inl hpump)⟩

end Ratect.Stdin
