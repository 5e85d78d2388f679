import Mathlib

/-! # Runs of a partial step function

A system takes events: `step s e` is the state after `e`, or nothing where `e` cannot happen in
`s`.  `Reachable` are the states of every run, `run` is one run over a list of events, and
`Reachable.invariant` is the rule by which an invariant is proved.

A state may keep a log of what happened.  `Logged Q log` says of every entry that `Q` holds of it
and of the entries before it, so that it is proved entry by entry, as the log grows. -/

namespace Transition

variable {S E : Type}

/-- The states that some run from `init` reaches. -/
inductive Reachable (step : S → E → Option S) (init : S) : S → Prop
  | start : Reachable step init init
  | next {s s' : S} {e : E} : Reachable step init s → step s e = some s' → Reachable step init s'

/-- One run: the events in order, or nothing if one of them cannot happen. -/
def run (step : S → E → Option S) : S → List E → Option S
  | s, [] => some s
  | s, e :: events => (step s e).bind fun s' => run step s' events

variable {step : S → E → Option S} {init : S}

/-- What holds at the start and is kept by every step holds in every reachable state. -/
theorem Reachable.invariant {P : S → Prop} (h0 : P init)
    (hstep : ∀ s e s', Reachable step init s → P s → step s e = some s' → P s') {s : S}
    (h : Reachable step init s) : P s := by
  induction h with
  | start => exact h0
  | next hr he ih => exact hstep _ _ _ hr ih he

theorem Reachable.trans {s s' : S} (h : Reachable step init s) (h' : Reachable step s s') :
    Reachable step init s' := by
  induction h' with
  | start => exact h
  | next _ he ih => exact ih.next he

theorem reachable_of_run {s s' : S} {events : List E} (h : Reachable step init s)
    (hrun : run step s events = some s') : Reachable step init s' := by
  induction events generalizing s with
  | nil =>
      obtain rfl := Option.some.inj hrun
      exact h
  | cons e events ih =>
      obtain ⟨mid, hmid, hrun⟩ := Option.bind_eq_some_iff.mp hrun
      exact ih (h.next hmid) hrun

/-- A run evaluated in part: the state it ends in, with that part of it. -/
theorem exists_reachable_of_run {T : Type} {f : S → T} {v : T} {events : List E}
    (h : (run step init events).map f = some v) : ∃ s, Reachable step init s ∧ f s = v := by
  obtain ⟨s, hs, hv⟩ := Option.map_eq_some_iff.mp h
  exact ⟨s, reachable_of_run .start hs, hv⟩

/-- Where a step that lowers the rank is always possible, the goal is reached. -/
theorem exists_reachable_of_rank {P goal : S → Prop} (rank : S → ℕ)
    (hnext : ∀ s, P s → ¬ goal s → ∃ e s', step s e = some s' ∧ P s' ∧ rank s' < rank s) {s : S}
    (hs : P s) : ∃ s', Reachable step s s' ∧ P s' ∧ goal s' := by
  induction hn : rank s using Nat.strong_induction_on generalizing s with
  | _ n ih =>
      by_cases hgoal : goal s
      · exact ⟨s, .start, hs, hgoal⟩
      · obtain ⟨e, s', hstep, hs', hlt⟩ := hnext s hs hgoal
        obtain ⟨s'', hreach, hs'', hgoal''⟩ := ih (rank s') (hn ▸ hlt) hs' rfl
        exact ⟨s'', (Reachable.start.next hstep).trans hreach, hs'', hgoal''⟩

/-! ### Logs -/

variable {L : Type} {Q : List L → L → Prop}

/-- Every entry of the log satisfies `Q` with the entries before it. -/
def Logged (Q : List L → L → Prop) (log : List L) : Prop :=
  ∀ l₁ x l₂, log = l₁ ++ x :: l₂ → Q l₁ x

theorem logged_nil : Logged Q [] := by
  intro l₁ x l₂ h
  simp at h

theorem Logged.concat {log : List L} {x : L} (h : Logged Q log) (hx : Q log x) :
    Logged Q (log ++ [x]) := by
  intro l₁ y l₂ heq
  rcases List.eq_nil_or_concat l₂ with rfl | ⟨l, z, rfl⟩
  · obtain ⟨rfl, hy⟩ := List.append_inj' heq rfl
    rw [← List.singleton_inj.mp hy]
    exact hx
  · have heq' : log ++ [x] = (l₁ ++ y :: l) ++ [z] := by simpa using heq
    exact h l₁ y l (List.append_inj_left' heq' rfl)

/-- What every entry inherits from the entries before it holds of all of them. -/
theorem Logged.induction {R : L → Prop} {log : List L} (h : Logged Q log)
    (hnext : ∀ before x, Q before x → (∀ y ∈ before, R y) → R x) : ∀ x ∈ log, R x := by
  have hpre : ∀ before rest, log = before ++ rest → ∀ y ∈ before, R y := by
    intro before
    induction before using List.reverseRecOn with
    | nil =>
        intro rest hlog y hy
        cases hy
    | append_singleton before x ih =>
        intro rest hlog y hy
        have hlog' : log = before ++ x :: rest := by simpa using hlog
        have hbefore := ih (x :: rest) hlog'
        rcases List.mem_append.mp hy with hy | hy
        · exact hbefore y hy
        · rw [List.mem_singleton.mp hy]
          exact hnext before x (h before x rest hlog') hbefore
  exact fun x hx => hpre log [] (List.append_nil log).symm x hx

/-- Where more entries before make no difference, a new entry is one after the old log. -/
theorem Logged.append (hmono : ∀ l x new, Q l x → Q (l ++ new) x) {log new : List L}
    (h : Logged Q log) (hnew : ∀ x ∈ new, Q log x) : Logged Q (log ++ new) := by
  induction new using List.reverseRecOn with
  | nil => simpa using h
  | append_singleton new x ih =>
      rw [← List.append_assoc]
      refine (ih fun y hy => hnew y (List.mem_append_left _ hy)).concat ?_
      exact hmono _ _ _ (hnew x (List.mem_append_right _ List.mem_cons_self))

end Transition
