import Ratect.Loop

/-! # Programs that make calls

A program makes calls, one after the other, to something that answers them from a state of its own,
and stops at the first one that fails (`Program`).  `Runs` are its runs where any call may be
refused as well; `run` is the one where none is, apart from those that the service cannot answer.

`Safe` says that each call is fit for the state that it finds, in every run (`safe_iff`).  It is
computed along the program: what follows a part is asked about only in the states that the part ends
in (`safe_bind`). -/

theorem Except.map_eq_ok {ε α β : Type} {f : α → β} {x : Except ε α} {b : β} :
    x.map f = .ok b ↔ ∃ a, x = .ok a ∧ f a = b := by
  cases x with
  | error e => simp [Except.map]
  | ok a => simp [Except.map]

namespace Calls

/-- A program that makes calls `κ`, whose replies are `ρ`: it ends with a result or an error, or
makes a call, says how an error of it is reported, and goes on with the reply. -/
inductive Program {κ : Type} (ρ : κ → Type) (ε α : Type) where
  | done (a : α)
  | fail (e : ε)
  | call (c : κ) (report : ε → ε) (next : ρ c → Program ρ ε α)

/-- What answers calls: an error, or a reply and the state after it. -/
abbrev Service (σ : Type) {κ : Type} (ρ : κ → Type) (ε : Type) := (c : κ) → σ → Except ε (ρ c × σ)

namespace Program

variable {σ κ ε α β : Type} {ρ : κ → Type}

def bind : Program ρ ε α → (α → Program ρ ε β) → Program ρ ε β
  | done a, f => f a
  | fail e, _ => fail e
  | call c report next, f => call c report fun reply => (next reply).bind f

instance : Monad (Program ρ ε) where
  pure := done
  bind := bind

/-- One call. -/
def ask (c : κ) : Program ρ ε (ρ c) := call c id done

/-- An error in other words. -/
def mapError (f : ε → ε) : Program ρ ε α → Program ρ ε α
  | done a => done a
  | fail e => fail (f e)
  | call c report next => call c (f ∘ report) fun reply => (next reply).mapError f

/-- What needs no call. -/
def ofExcept : Except ε α → Program ρ ε α
  | .ok a => done a
  | .error e => fail e

/-- One turn for each element of a list. -/
def forEach (turn : α → Program ρ ε Unit) : List α → Program ρ ε Unit
  | [] => done ()
  | a :: rest => turn a >>= fun _ => forEach turn rest

/-! ### Runs -/

section runs

variable (service : Service σ ρ ε)

/-- The run in which no call is refused: its result, with the state it ends in. -/
def run : Program ρ ε α → σ → Except ε (α × σ)
  | done a, s => .ok (a, s)
  | fail e, _ => .error e
  | call c report next, s =>
      match service c s with
      | .error e => .error (report e)
      | .ok (reply, s') => (next reply).run s'

/-- The calls made in it, each with the state that it found. -/
def made : Program ρ ε α → σ → List (κ × σ)
  | done _, _ => []
  | fail _, _ => []
  | call c _ next, s =>
      (c, s) ::
        match service c s with
        | .error _ => []
        | .ok (reply, s') => (next reply).made s'

/-- The runs of a program from a state, each with the calls made in it, the state that each call
found, and the outcome.  Any call may be refused. -/
inductive Runs : Program ρ ε α → σ → List (κ × σ) → Except ε α → Prop
  | done (a : α) (s : σ) : Runs (done a) s [] (.ok a)
  | fail (e : ε) (s : σ) : Runs (fail e) s [] (.error e)
  | refused (c : κ) (report : ε → ε) (next : ρ c → Program ρ ε α) (s : σ) (e : ε) :
      Runs (call c report next) s [(c, s)] (.error (report e))
  | answered {c : κ} {report : ε → ε} {next : ρ c → Program ρ ε α} {s s' : σ} {reply : ρ c}
      {made : List (κ × σ)} {outcome : Except ε α} (hreply : service c s = .ok (reply, s'))
      (hnext : Runs (next reply) s' made outcome) :
        Runs (call c report next) s ((c, s) :: made) outcome

/-- Every call is fit for the state it finds. -/
def Safe (Fit : κ → σ → Prop) : Program ρ ε α → σ → Prop
  | done _, _ => True
  | fail _, _ => True
  | call c _ next, s =>
      Fit c s ∧ ∀ reply s', service c s = .ok (reply, s') → (next reply).Safe Fit s'

end runs

variable {service : Service σ ρ ε} {Fit : κ → σ → Prop}

/-- The run in which no call is refused is a run. -/
theorem runs_made (p : Program ρ ε α) (s : σ) :
    p.Runs service s (p.made service s) ((p.run service s).map Prod.fst) := by
  induction p generalizing s with
  | done a => exact .done a s
  | fail e => exact .fail e s
  | call c report next ih =>
      rw [run, made]
      cases hreply : service c s with
      | error e => exact .refused c report next s e
      | ok answer => exact .answered hreply (ih answer.1 answer.2)

/-- A program is safe exactly if every call of every run is fit. -/
theorem safe_iff [Nonempty ε] {p : Program ρ ε α} {s : σ} :
    p.Safe service Fit s ↔
      ∀ made outcome, p.Runs service s made outcome → ∀ e ∈ made, Fit e.1 e.2 := by
  constructor
  · intro hsafe made outcome hruns
    induction hruns with
    | done a s => simp
    | fail e s => simp
    | refused c report next s e => exact List.forall_mem_singleton.mpr hsafe.1
    | answered hreply hnext ih => exact List.forall_mem_cons.mpr ⟨hsafe.1, ih (hsafe.2 _ _ hreply)⟩
  · intro hruns
    induction p generalizing s with
    | done a => trivial
    | fail e => trivial
    | call c report next ih =>
        constructor
        · have hrefused : (call c report next).Runs service s [(c, s)]
              (.error (report (Classical.arbitrary ε))) :=
            .refused c report next s (Classical.arbitrary ε)
          exact hruns _ _ hrefused _ List.mem_cons_self
        · intro reply s' hreply
          refine ih reply fun made outcome hnext e he => ?_
          exact hruns _ _ (.answered hreply hnext) e (List.mem_cons_of_mem _ he)

/-! ### Along a program -/

theorem run_bind {p : Program ρ ε α} {f : α → Program ρ ε β} {s s' : σ} {b : β} :
    (p >>= f).run service s = .ok (b, s') ↔
      ∃ a mid, p.run service s = .ok (a, mid) ∧ (f a).run service mid = .ok (b, s') := by
  change (p.bind f).run service s = .ok (b, s') ↔ _
  induction p generalizing s with
  | done a => simp [bind, run]
  | fail e => simp [bind, run]
  | call c report next ih =>
      rw [bind, run, run]
      cases service c s with
      | error e => simp
      | ok answer => exact ih answer.1

theorem safe_bind {p : Program ρ ε α} {f : α → Program ρ ε β} {s : σ} :
    (p >>= f).Safe service Fit s ↔
      p.Safe service Fit s ∧ ∀ a s', p.run service s = .ok (a, s') → (f a).Safe service Fit s' := by
  change (p.bind f).Safe service Fit s ↔ _
  induction p generalizing s with
  | done a => simp [bind, run, Safe]
  | fail e => simp [bind, run, Safe]
  | call c report next ih =>
      rw [bind, Safe, Safe, run]
      cases hreply : service c s with
      | error e => simp
      | ok answer =>
          obtain ⟨reply, mid⟩ := answer
          have hthis : ∀ {P : ρ c → σ → Prop},
              (∀ reply' s', Except.ok (ε := ε) (reply, mid) = .ok (reply', s') → P reply' s') ↔
                P reply mid := by
            intro P
            constructor
            · exact fun h => h _ _ rfl
            · rintro h _ _ ⟨⟩
              exact h
          rw [hthis, hthis, ih, and_assoc]

theorem safe_mapError {f : ε → ε} {p : Program ρ ε α} {s : σ} :
    (p.mapError f).Safe service Fit s ↔ p.Safe service Fit s := by
  induction p generalizing s with
  | done a => exact Iff.rfl
  | fail e => exact Iff.rfl
  | call c report next ih =>
      rw [mapError, Safe, Safe]
      simp only [ih]

theorem run_ask {c : κ} {s : σ} : (ask c : Program ρ ε (ρ c)).run service s = service c s := by
  rw [ask, run]
  cases service c s <;> rfl

theorem safe_ask {c : κ} {s : σ} : (ask c : Program ρ ε (ρ c)).Safe service Fit s ↔ Fit c s := by
  simp [ask, Safe]

theorem safe_ask_bind {c : κ} {f : ρ c → Program ρ ε β} {s : σ} :
    (ask c >>= f).Safe service Fit s ↔
      Fit c s ∧ ∀ reply s', service c s = .ok (reply, s') → (f reply).Safe service Fit s' := Iff.rfl

theorem run_ask_bind {c : κ} {f : ρ c → Program ρ ε β} {s s' : σ} {b : β} :
    (ask c >>= f).run service s = .ok (b, s') ↔
      ∃ reply mid, service c s = .ok (reply, mid) ∧ (f reply).run service mid = .ok (b, s') := by
  rw [run_bind, run_ask]

@[simp]
theorem safe_ofExcept (x : Except ε α) (s : σ) :
    (ofExcept x : Program ρ ε α).Safe service Fit s := by
  cases x <;> trivial

@[simp]
theorem run_ofExcept {x : Except ε α} {s s' : σ} {a : α} :
    (ofExcept x : Program ρ ε α).run service s = .ok (a, s') ↔ x = .ok a ∧ s' = s := by
  cases x with
  | error e => simp [ofExcept, run]
  | ok b =>
      simp only [ofExcept, run, Except.ok.injEq, Prod.mk.injEq]
      exact and_congr_right' eq_comm

/-- What holds between the states before and after each call holds between those before and after a
run. -/
theorem run_related {R : σ → σ → Prop} (hrefl : ∀ s, R s s)
    (htrans : ∀ {a b c}, R a b → R b c → R a c)
    (hcall : ∀ c s reply s', service c s = .ok (reply, s') → R s s') {p : Program ρ ε α} {s s' : σ}
    {a : α} (h : p.run service s = .ok (a, s')) : R s s' := by
  induction p generalizing s with
  | done b =>
      cases h
      exact hrefl _
  | fail e => cases h
  | call c report next ih =>
      rw [run] at h
      cases hreply : service c s with
      | error e =>
          rw [hreply] at h
          cases h
      | ok answer =>
          rw [hreply] at h
          exact htrans (hcall c s answer.1 answer.2 hreply) (ih answer.1 h)

/-- Where every call is fit for every state, every program is safe. -/
theorem safe_of_fit (hfit : ∀ c s, Fit c s) (p : Program ρ ε α) (s : σ) : p.Safe service Fit s := by
  induction p generalizing s with
  | done a => trivial
  | fail e => trivial
  | call c report next ih => exact ⟨hfit c s, fun reply s' _ => ih reply s'⟩

end Program

end Calls
