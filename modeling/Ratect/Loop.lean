import Mathlib

/-! # Loops that may fail

A loop goes round a `step` that fails, ends with a result, or goes on from a new state.  `run` is
bounded by the rounds it may take.  Whatever holds at the start and is kept by every round holds
where the loop ends (`run_end`), and a loop whose rounds descend in a well-founded order ends
(`run_terminates`). -/

/-- A failing step fails the whole; a step that succeeds hands on its result. -/
theorem Except.bind_eq_ok {ε α β : Type} {x : Except ε α} {f : α → Except ε β} {b : β} :
    (x >>= f) = .ok b ↔ ∃ a, x = .ok a ∧ f a = .ok b := by
  cases x with
  | error e =>
      constructor
      · intro h
        cases h
      · rintro ⟨a, ha, -⟩
        cases ha
  | ok a =>
      constructor
      · intro h
        exact ⟨a, rfl, h⟩
      · rintro ⟨a', ha, h⟩
        cases ha
        exact h

/-- A loop that only fails or goes on does not fail if no round does. -/
theorem Except.forM_eq_ok {ε α : Type} {f : α → Except ε Unit} {l : List α} :
    l.forM f = .ok () ↔ ∀ a ∈ l, f a = .ok () := by
  induction l with
  | nil => simp [pure, Except.pure]
  | cons a l ih =>
      rw [List.forM_eq_forM, List.forM_cons, Except.bind_eq_ok, List.forall_mem_cons, ← ih]
      constructor
      · rintro ⟨⟨⟩, ha, hl⟩
        exact ⟨ha, hl⟩
      · rintro ⟨ha, hl⟩
        exact ⟨(), ha, hl⟩

/-- What mapping a list yields, unless it fails somewhere. -/
theorem Except.mapM_eq_ok {ε α β : Type} {f : α → Except ε β} {l : List α} {results : List β} :
    l.mapM f = .ok results ↔ List.Forall₂ (fun a b => f a = .ok b) l results := by
  induction l generalizing results with
  | nil =>
      rw [List.mapM_nil, List.forall₂_nil_left_iff]
      constructor
      · intro h
        cases h
        rfl
      · rintro rfl
        rfl
  | cons a l ih =>
      rw [List.mapM_cons, Except.bind_eq_ok, List.forall₂_cons_left_iff]
      constructor
      · rintro ⟨b, hb, h⟩
        obtain ⟨rest, hrest, h⟩ := Except.bind_eq_ok.mp h
        cases h
        exact ⟨b, rest, hb, ih.mp hrest, rfl⟩
      · rintro ⟨b, rest, hb, hrest, rfl⟩
        exact ⟨b, hb, Except.bind_eq_ok.mpr ⟨rest, ih.mpr hrest, rfl⟩⟩

/-- What mapping a list yields where nothing fails. -/
theorem Option.mapM_eq_some_map {α β : Type} {f : α → Option β} {g : α → β} {l : List α}
    (h : ∀ a ∈ l, f a = some (g a)) : l.mapM f = some (l.map g) := by
  induction l with
  | nil => rfl
  | cons a l ih =>
      rw [List.mapM_cons, h a List.mem_cons_self, ih fun b hb => h b (List.mem_cons_of_mem _ hb)]
      rfl

/-- One failure fails the whole. -/
theorem Option.mapM_eq_none {α β : Type} {f : α → Option β} {l : List α} {a : α} (ha : a ∈ l)
    (h : f a = none) : l.mapM f = none := by
  induction l with
  | nil => cases ha
  | cons b l ih =>
      rw [List.mapM_cons]
      rcases List.mem_cons.mp ha with rfl | ha
      · rw [h]
        rfl
      · rw [ih ha]
        cases f b <;> rfl

/-- A check: the message if it does not hold. -/
def Except.ensure {ε : Type} (p : Prop) [Decidable p] (message : ε) : Except ε Unit :=
  if p then .ok () else .error message

@[simp]
theorem Except.ensure_eq_ok {ε : Type} {p : Prop} [Decidable p] {message : ε} :
    Except.ensure p message = .ok () ↔ p := by
  unfold Except.ensure
  split <;> simp_all

/-- A failure told with what was being done. -/
def Except.withContext {α : Type} (context : String) : Except String α → Except String α
  | .ok a => .ok a
  | .error cause => .error s!"{context}: {cause}"

@[simp]
theorem Except.withContext_eq_ok {α : Type} {context : String} {x : Except String α} {a : α} :
    Except.withContext context x = .ok a ↔ x = .ok a := by
  cases x with
  | ok b => exact Iff.rfl
  | error e => simp [Except.withContext]

/-- A result that is no failure and passes a test. -/
def Except.passes {ε α : Type} (test : α → Bool) : Except ε α → Bool
  | .ok a => test a
  | .error _ => false

theorem Except.exists_of_passes {ε α : Type} {test : α → Bool} {x : Except ε α}
    (h : x.passes test = true) : ∃ a, x = .ok a ∧ test a = true := by
  match x, h with
  | .ok a, h => exact ⟨a, rfl, h⟩

namespace Loop

variable {σ ε α : Type}

/-- At most so many rounds of `step` from a state; nothing if they do not suffice. -/
def run (step : σ → Except ε (σ ⊕ α)) : ℕ → σ → Option (Except ε α)
  | 0, _ => none
  | rounds + 1, s =>
      match step s with
      | .error e => some (.error e)
      | .ok (.inr a) => some (.ok a)
      | .ok (.inl s') => run step rounds s'

variable {step : σ → Except ε (σ ⊕ α)}

/-- The states that the rounds of a loop go through. -/
inductive Reached (step : σ → Except ε (σ ⊕ α)) (start : σ) : σ → Prop
  | start : Reached step start start
  | next {s s' : σ} : Reached step start s → step s = .ok (.inl s') → Reached step start s'

/-- What holds at the start and is kept by every round holds in every state of the loop. -/
theorem Reached.invariant {start : σ} {P : σ → Prop} (hstart : P start)
    (hstep : ∀ s s', P s → step s = .ok (.inl s') → P s') {s : σ}
    (h : Reached step start s) : P s := by
  induction h with
  | start => exact hstart
  | next _ hround ih => exact hstep _ _ ih hround

/-- Where a loop ends, the invariant holds and the last round decided the result. -/
theorem run_end {P : σ → Prop} (hstep : ∀ s s', P s → step s = .ok (.inl s') → P s') {rounds : ℕ}
    {s : σ} {r : Except ε α} (hs : P s) (h : run step rounds s = some r) :
    ∃ s', P s' ∧ step s' = r.map .inr := by
  induction rounds generalizing s with
  | zero => cases h
  | succ rounds ih =>
      unfold run at h
      split at h
      · next e he =>
          obtain rfl := Option.some.inj h
          exact ⟨s, hs, he⟩
      · next a ha =>
          obtain rfl := Option.some.inj h
          exact ⟨s, hs, ha⟩
      · next s' hs' => exact ih (hstep s s' hs hs') h

/-- A loop whose rounds descend ends, with a result or a failure. -/
theorem run_terminates {ι : Type} {lt : ι → ι → Prop} (hwf : WellFounded lt) (rank : σ → ι)
    {P : σ → Prop}
    (hstep : ∀ s s', P s → step s = .ok (.inl s') → P s' ∧ lt (rank s') (rank s)) {s : σ}
    (hs : P s) : ∃ rounds r, run step rounds s = some r := by
  induction hn : rank s using hwf.induction generalizing s with
  | _ n ih =>
      match hround : step s with
      | .error e => exact ⟨1, .error e, by simp [run, hround]⟩
      | .ok (.inr a) => exact ⟨1, .ok a, by simp [run, hround]⟩
      | .ok (.inl s') =>
          obtain ⟨hs', hlt⟩ := hstep s s' hs hround
          obtain ⟨rounds, r, hr⟩ := ih (rank s') (hn ▸ hlt) hs' rfl
          exact ⟨rounds + 1, r, by simpa [run, hround] using hr⟩

/-- A result that is no failure and passes a test. -/
def succeeds (test : α → Bool) : Option (Except ε α) → Bool
  | some (.ok a) => test a
  | _ => false

/-- The failure that a loop ended with, if it did. -/
def failure : Option (Except ε α) → Option ε
  | some (.error e) => some e
  | _ => none

theorem exists_of_succeeds {test : α → Bool} {r : Option (Except ε α)}
    (h : succeeds test r = true) : ∃ a, r = some (.ok a) ∧ test a = true := by
  match r, h with
  | some (.ok a), h => exact ⟨a, rfl, h⟩

/-! ### What is left to see -/

variable {ν : Type} [DecidableEq ν]

/-- How many of the nodes were not seen yet. -/
def unseen (nodes seen : List ν) : ℕ := (nodes.filter fun n => n ∉ seen).length

/-- Seeing a new node leaves fewer. -/
theorem unseen_lt {nodes seen : List ν} {n : ν} (hn : n ∈ nodes) (hseen : n ∉ seen) :
    unseen nodes (seen ++ [n]) < unseen nodes seen := by
  have hfilter : nodes.filter (fun m => m ∉ seen ++ [n]) =
      (nodes.filter fun m => m ∉ seen).filter fun m => m ≠ n := by
    rw [List.filter_filter]
    congr 1
    funext m
    by_cases hmn : m = n <;> by_cases hm : m ∈ seen <;> simp [hmn, hm]
  have hmem : n ∈ nodes.filter fun m => m ∉ seen := by simp [hn, hseen]
  unfold unseen
  rw [hfilter]
  exact List.length_filter_lt_length_iff_exists.mpr ⟨n, hmem, by simp⟩

theorem unseen_le (nodes : List ν) {seen seen' : List ν} (hsub : seen ⊆ seen') :
    unseen nodes seen' ≤ unseen nodes seen := by
  unfold unseen
  apply List.Sublist.length_le
  apply List.monotone_filter_right
  intro n hn
  simp only [decide_eq_true_eq] at hn ⊢
  exact fun hmem => hn (hsub hmem)

end Loop
