import Ratect.Transition

/-! # Memoised initialisers, joined and capped

A library for asynchronous start-up code.  Work is memoised in *cells*: whoever needs a cell first
runs its initialiser, the others wait for its result.  An initialiser is a `Script`: it awaits
other cells together (a join of `try_join_all`s), takes and returns the one permit it may hold of
a semaphore, and calls the outside world, going on by the answer.

`step` is the interleaving semantics of all initialisers at once:

* a cell's initialiser runs inside its callers' futures, so its job carries the stack of cells
  that are running it;
* a failure is returned through that stack in the same step: the caller sees it at once if the
  join it is in is fail-fast, and otherwise only when every earlier entry has succeeded;
* a cell that fails drops everything that runs on its behalf: those cells become idle again, and
  may be claimed by another caller that waits for them.

`cap` bounds the permits, and `fast n` says whether a join of `n` entries is fail-fast. -/

namespace Fanout

/-- What an initialiser still does, over cells `K`, requests `R` and answers `A`. -/
inductive Script (K R A : Type)
  | done
  | fail
  | join (groups : List (List K)) (next : Script K R A)
  | acquire (next : Script K R A)
  | release (next : Script K R A)
  | call (request : R) (next : A → Script K R A)

/-- A running initialiser: the cells it runs inside of (innermost first), what it still does, and
whether the call it is at has been sent. -/
structure Job (K R A : Type) where
  stack : List K
  script : Script K R A
  sent : Bool

/-- A cell: untouched, being initialised, or holding its result.  A failure names the cell it
came from. -/
inductive Status (K R A : Type)
  | idle
  | running (job : Job K R A)
  | settled (result : Except K Unit)

/-- The cells and the permits, with a record of the calls: those sent, those not answered yet and
the answers; and of the cells that failed by themselves. -/
structure State (K R A : Type) where
  cells : K → Status K R A
  holders : List K
  issued : List (K × R)
  unanswered : List (K × R)
  answers : List (K × R × A)
  failures : List K

/-- The code: the script of each cell, the cell that is run, the permits and the strategy. -/
structure System (K R A : Type) where
  script : K → Script K R A
  top : K
  cap : Option ℕ
  fast : ℕ → Bool

/-- What can happen next. -/
inductive Event (K A : Type)
  | claim (caller cell : K)
  | resume (cell : K)
  | observe (cell : K)
  | acquire (cell : K)
  | send (cell : K)
  | answer (cell : K) (a : A)
deriving DecidableEq, Repr

variable {K R A : Type} [DecidableEq K] [DecidableEq R]

namespace State

/-- Whether the cell holds a success. -/
def isOk (s : State K R A) (k : K) : Bool :=
  match s.cells k with
  | .settled (.ok ()) => true
  | _ => false

/-- The failure that the cell holds. -/
def failureOf (s : State K R A) (k : K) : Option K :=
  match s.cells k with
  | .settled (.error f) => some f
  | _ => none

/-- Whether the cell's initialiser runs inside of `k`'s. -/
def runsFor (s : State K R A) (k c : K) : Bool :=
  match s.cells c with
  | .running job => decide (k ∈ job.stack)
  | _ => false

/-- The cell's new status. -/
def put (s : State K R A) (k : K) (status : Status K R A) : State K R A :=
  { s with cells := Function.update s.cells k status }

/-- The permit goes back. -/
def returnPermit (s : State K R A) (k : K) : State K R A :=
  { s with holders := s.holders.filter fun c => c ≠ k }

/-- Everything running on behalf of `k` is dropped, its permits with it. -/
def drop (s : State K R A) (k : K) : State K R A :=
  { s with
    cells := fun c => if s.runsFor k c then .idle else s.cells c
    holders := s.holders.filter fun c => ¬ s.runsFor k c }

/-- The initialiser of `k` has ended. -/
def settle (s : State K R A) (k : K) (result : Except K Unit) : State K R A :=
  ((s.drop k).returnPermit k).put k (.settled result)

end State

section step

variable (sys : System K R A)

/-- The failure that one `try_join_all` returns: any entry's where it is fail-fast, and otherwise
that of the first entry that has not succeeded. -/
def groupFailure (s : State K R A) (group : List K) : Option K :=
  if sys.fast group.length then group.findSome? s.failureOf
  else (group.find? fun k => !s.isOk k).bind s.failureOf

/-- The failure that a join of several `try_join_all`s returns. -/
def joinFailure (s : State K R A) (groups : List (List K)) : Option K :=
  groups.findSome? (groupFailure sys s)

/-- The initialiser of `k` fails with `f`, inside of the callers `stack`. -/
def failUp : List K → K → K → State K R A → State K R A
  | [], k, f, s => s.settle k (.error f)
  | p :: stack, k, f, s =>
      let s := s.settle k (.error f)
      match s.cells p with
      | .running ⟨_, .join groups _, _⟩ =>
          match joinFailure sys s groups with
          | some f => failUp stack p f s
          | none => s
      | _ => s

/-- The initialiser of `k` goes on with a script, up to the next point where it waits. -/
def advance (k : K) (stack : List K) : Script K R A → State K R A → State K R A
  | .done, s => s.settle k (.ok ())
  | .fail, s => failUp sys stack k k { s with failures := s.failures ++ [k] }
  | .release next, s => advance k stack next (s.returnPermit k)
  | .join groups next, s => s.put k (.running ⟨stack, .join groups next, false⟩)
  | .acquire next, s => s.put k (.running ⟨stack, .acquire next, false⟩)
  | .call request next, s => s.put k (.running ⟨stack, .call request next, false⟩)

/-- Whether a permit is free. -/
def permitFree (s : State K R A) : Bool :=
  match sys.cap with
  | none => true
  | some n => s.holders.length < n

/-- Whether the cell has not been touched. -/
def State.isIdle (s : State K R A) (k : K) : Bool :=
  match s.cells k with
  | .idle => true
  | _ => false

/-- One step of the whole system. -/
def step (s : State K R A) : Event K A → Option (State K R A)
  | .claim p k =>
      match s.cells p with
      | .running ⟨stack, .join groups _, _⟩ =>
          if k ∈ groups.flatten ∧ s.isIdle k = true then
            some (advance sys k (p :: stack) (sys.script k) s)
          else none
      | _ => none
  | .resume p =>
      match s.cells p with
      | .running ⟨stack, .join groups next, _⟩ =>
          if ∀ k ∈ groups.flatten, s.isOk k = true then some (advance sys p stack next s) else none
      | _ => none
  | .observe p =>
      match s.cells p with
      | .running ⟨stack, .join groups _, _⟩ =>
          (joinFailure sys s groups).map fun f => failUp sys stack p f s
      | _ => none
  | .acquire p =>
      match s.cells p with
      | .running ⟨stack, .acquire next, _⟩ =>
          if permitFree sys s then
            some (advance sys p stack next { s with holders := p :: s.holders })
          else none
      | _ => none
  | .send p =>
      match s.cells p with
      | .running ⟨stack, .call request next, false⟩ =>
          some { (s.put p (.running ⟨stack, .call request next, true⟩)) with
            issued := s.issued ++ [(p, request)]
            unanswered := s.unanswered ++ [(p, request)] }
      | _ => none
  | .answer p a =>
      match s.cells p with
      | .running ⟨stack, .call request next, true⟩ =>
          some (advance sys p stack (next a) { s with
            unanswered := s.unanswered.erase (p, request)
            answers := s.answers ++ [(p, request, a)] })
      | _ => none

/-- The start: the cells of `pre` are settled from earlier, the top cell's initialiser runs. -/
def initial (pre : K → Bool) : State K R A where
  cells := fun k =>
    if k = sys.top then .running ⟨[], sys.script sys.top, false⟩
    else if pre k then .settled (.ok ()) else .idle
  holders := []
  issued := []
  unanswered := []
  answers := []
  failures := []

end step

end Fanout
