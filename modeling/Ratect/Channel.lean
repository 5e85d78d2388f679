import Mathlib

/-! # A bounded channel with reserved places

A sender reserves a place before it has anything to send, and fills it or gives it back later.  A
place that is neither reserved nor filled is free.  The receiver takes what was sent, in order, and
learns that the channel is closed once nothing is left in it. -/

/-- The places still free, what has been sent and not received, and whether the sender is gone. -/
structure Channel (α : Type) where
  free : ℕ
  queue : List α
  closed : Bool

namespace Channel

variable {α : Type} {c c' : Channel α} {a : α} {answer : Option α}

/-- An empty channel of that many places. -/
def bounded (capacity : ℕ) : Channel α := ⟨capacity, [], false⟩

/-- Takes a free place; nothing where the sender has to wait for one. -/
def reserve (c : Channel α) : Option (Channel α) :=
  if 0 < c.free then some { c with free := c.free - 1 } else none

/-- Fills a reserved place. -/
def send (c : Channel α) (a : α) : Channel α := { c with queue := c.queue ++ [a] }

/-- Gives a reserved place back. -/
def release (c : Channel α) : Channel α := { c with free := c.free + 1 }

/-- The sender is gone. -/
def close (c : Channel α) : Channel α := { c with closed := true }

/-- What the receiver is answered; nothing where it has to wait. -/
def recv (c : Channel α) : Option (Option α × Channel α) :=
  match c.queue with
  | a :: queue => some (some a, { c with queue := queue, free := c.free + 1 })
  | [] => if c.closed then some (none, c) else none

/-- The places of the channel that are not reserved. -/
def places (c : Channel α) : ℕ := c.free + c.queue.length

theorem reserve_eq_some :
    c.reserve = some c' ↔ 0 < c.free ∧ c' = { c with free := c.free - 1 } := by
  unfold reserve
  by_cases h : 0 < c.free
  · simp [h, eq_comm]
  · simp [h]

/-- A place is reserved out of those that were free. -/
theorem places_reserve (h : c.reserve = some c') : c'.places + 1 = c.places := by
  obtain ⟨hfree, rfl⟩ := reserve_eq_some.mp h
  simp only [places]
  omega

@[simp]
theorem places_send : (c.send a).places = c.places + 1 := by
  simp only [places, send, List.length_append, List.length_singleton]
  omega

@[simp]
theorem places_release : c.release.places = c.places + 1 := by
  simp only [places, release]
  omega

/-- The receiver gets the first of the queue, or learns that an empty channel is closed. -/
theorem recv_cases (h : c.recv = some (answer, c')) :
    (∃ a, answer = some a ∧ c.queue = a :: c'.queue ∧ c'.closed = c.closed ∧ c'.places = c.places) ∨
      (answer = none ∧ c.queue = [] ∧ c.closed = true ∧ c' = c) := by
  unfold recv at h
  cases hqueue : c.queue with
  | cons a queue =>
      rw [hqueue] at h
      obtain ⟨rfl, rfl⟩ := Prod.mk.inj (Option.some.inj h)
      refine .inl ⟨a, rfl, rfl, rfl, ?_⟩
      simp only [places, hqueue, List.length_cons]
      omega
  | nil =>
      rw [hqueue] at h
      by_cases hclosed : c.closed = true
      · rw [if_pos hclosed] at h
        obtain ⟨rfl, rfl⟩ := Prod.mk.inj (Option.some.inj h)
        exact .inr ⟨rfl, rfl, hclosed, rfl⟩
      · rw [if_neg hclosed] at h
        cases h

theorem recv_closed (hqueue : c.queue = []) (hclosed : c.closed = true) :
    c.recv = some (none, c) := by
  simp [recv, hqueue, hclosed]

theorem recv_cons {queue : List α} (hqueue : c.queue = a :: queue) :
    c.recv = some (some a, { c with queue := queue, free := c.free + 1 }) := by
  simp [recv, hqueue]

end Channel
