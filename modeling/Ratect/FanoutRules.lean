import Ratect.FanoutFailures

/-! # Rules for the script of a cell

The properties of scripts that the results on runs ask for, in one place: `Rules` says what a cell
may await and call, what has to be awaited first, what is called once and which answers must end
it, and `Conforms` checks a script against them, with the permit held, the cells awaited and the
calls made so far.  Each property follows from it. -/

namespace Fanout

variable {K R A : Type}

/-- The rules of one cell. -/
structure Rules (K R A : Type) where
  capped : R → Prop
  need : R → List K
  needEnd : List K
  awaits : List (List K) → Prop
  calls : R → Prop
  once : R → Prop
  bad : R → A → Prop

/-- The script keeps the rules. -/
def Conforms (rules : Rules K R A) : Bool → List K → List R → Script K R A → Prop
  | _, joined, _, .done => ∀ c ∈ rules.needEnd, c ∈ joined
  | _, _, _, .fail => True
  | held, joined, made, .join groups next => held = false ∧ rules.awaits groups ∧
      Conforms rules false (joined ++ groups.flatten) made next
  | held, joined, made, .acquire next => held = false ∧ Conforms rules true joined made next
  | held, joined, made, .release next => held = true ∧ Conforms rules false joined made next
  | held, joined, made, .call request next =>
      (rules.capped request → held = true) ∧ rules.calls request ∧
      (rules.once request → request ∉ made) ∧ (∀ c ∈ rules.need request, c ∈ joined) ∧
      ∀ a, (rules.bad request a → (next a).rest = .fail) ∧
        Conforms rules held joined (request :: made) (next a)

namespace Conforms

variable {rules : Rules K R A} {held : Bool} {joined : List K} {made : List R}
  {script : Script K R A}

theorem permits (h : Conforms rules held joined made script) : Scoped rules.capped held script := by
  induction script generalizing held joined made with
  | done => trivial
  | fail => trivial
  | join groups next ih => exact ⟨h.1, ih h.2.2⟩
  | acquire next ih => exact ⟨h.1, ih h.2⟩
  | release next ih => exact ⟨h.1, ih h.2⟩
  | call request next ih => exact ⟨h.1, fun a => ih a (h.2.2.2.2 a).2⟩

theorem guarded (h : Conforms rules held joined made script) :
    Guarded rules.need rules.needEnd joined script := by
  induction script generalizing held joined made with
  | done => exact h
  | fail => trivial
  | join groups next ih => exact ih h.2.2
  | acquire next ih => exact ih h.2
  | release next ih => exact ih h.2
  | call request next ih => exact ⟨h.2.2.2.1, fun a => ih a (h.2.2.2.2 a).2⟩

theorem ranked {rank : Ranking K} {n : ℕ} (h : Conforms rules held joined made script)
    (hawaits : ∀ groups, rules.awaits groups →
      ∀ k ∈ groups.flatten, rank.known k ∧ rank k < n) : Ranked rank n script := by
  induction script generalizing held joined made with
  | done => trivial
  | fail => trivial
  | join groups next ih => exact ⟨hawaits groups h.2.1, ih h.2.2⟩
  | acquire next ih => exact ih h.2
  | release next ih => exact ih h.2
  | call request next ih => exact fun a => ih a (h.2.2.2.2 a).2

theorem quick {fast : ℕ → Bool} (h : Conforms rules held joined made script)
    (hawaits : ∀ groups, rules.awaits groups → ∀ group ∈ groups, fast group.length = true) :
    Quick fast script := by
  induction script generalizing held joined made with
  | done => trivial
  | fail => trivial
  | join groups next ih => exact ⟨hawaits groups h.2.1, ih h.2.2⟩
  | acquire next ih => exact ih h.2
  | release next ih => exact ih h.2
  | call request next ih => exact fun a => ih a (h.2.2.2.2 a).2

theorem failsOn (h : Conforms rules held joined made script) : FailsOn rules.bad script := by
  induction script generalizing held joined made with
  | done => trivial
  | fail => trivial
  | join groups next ih => exact ih h.2.2
  | acquire next ih => exact ih h.2
  | release next ih => exact ih h.2
  | call request next ih => exact ⟨fun a => (h.2.2.2.2 a).1, fun a => ih a (h.2.2.2.2 a).2⟩

/-- A call outside of the rules is never made. -/
theorem avoids {request : R} (h : Conforms rules held joined made script)
    (hcalls : ¬ rules.calls request) : Avoids request script := by
  induction script generalizing held joined made with
  | done => trivial
  | fail => trivial
  | join groups next ih => exact ih h.2.2
  | acquire next ih => exact ih h.2
  | release next ih => exact ih h.2
  | call request' next ih =>
      refine ⟨?_, fun a => ih a (h.2.2.2.2 a).2⟩
      rintro rfl
      exact hcalls h.2.1

/-- A call made already, of a kind made once, is not made again. -/
theorem avoids_made {request : R} (h : Conforms rules held joined made script)
    (honce : rules.once request) (hmade : request ∈ made) : Avoids request script := by
  induction script generalizing held joined made with
  | done => trivial
  | fail => trivial
  | join groups next ih => exact ih h.2.2 hmade
  | acquire next ih => exact ih h.2 hmade
  | release next ih => exact ih h.2 hmade
  | call request' next ih =>
      refine ⟨?_, fun a => ih a (h.2.2.2.2 a).2 (List.mem_cons_of_mem _ hmade)⟩
      rintro rfl
      exact h.2.2.1 honce hmade

theorem once {request : R} (h : Conforms rules held joined made script)
    (honce : rules.once request) : Once request script := by
  induction script generalizing held joined made with
  | done => trivial
  | fail => trivial
  | join groups next ih => exact ih h.2.2
  | acquire next ih => exact ih h.2
  | release next ih => exact ih h.2
  | call request' next ih =>
      refine ⟨?_, fun a => ih a (h.2.2.2.2 a).2⟩
      rintro rfl a
      exact (h.2.2.2.2 a).2.avoids_made honce List.mem_cons_self

theorem hereditary (rules : Rules K R A) : Hereditary fun script : Script K R A =>
    ∃ held joined made, Conforms rules held joined made script where
  join := by
    rintro groups next ⟨held, joined, made, h⟩
    exact ⟨_, _, _, h.2.2⟩
  acquire := by
    rintro next ⟨held, joined, made, h⟩
    exact ⟨_, _, _, h.2⟩
  release := by
    rintro next ⟨held, joined, made, h⟩
    exact ⟨_, _, _, h.2⟩
  call := by
    rintro request next ⟨held, joined, made, h⟩ a
    exact ⟨_, _, _, (h.2.2.2.2 a).2⟩

end Conforms

/-- What a running initialiser awaits is within the rules of its cell. -/
theorem reachable_awaits [DecidableEq K] [DecidableEq R] {sys : System K R A}
    {rules : K → Rules K R A}
    (hscripts : ∀ k, Conforms (rules k) false [] [] (sys.script k)) {pre : K → Bool}
    {s : State K R A} (h : Transition.Reachable (step sys) (initial sys pre) s) {k : K}
    {stack : List K} {groups : List (List K)} {next : Script K R A} {sent : Bool}
    (hk : s.cells k = .running ⟨stack, .join groups next, sent⟩) : (rules k).awaits groups := by
  have hjob := reachable_scripts (fun k => Conforms.hereditary (rules k))
    (fun k => ⟨_, _, _, hscripts k⟩) h k _ hk
  obtain ⟨held, joined, made, hconforms⟩ := hjob
  exact hconforms.2.1

end Fanout
