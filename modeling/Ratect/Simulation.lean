import Ratect.Loop

/-! # Loops side by side

Two loops whose states stay related round by round end in related results (`run_related`).  Where
the first one is known to end, the relation may speak of its result: every state on the way leads
there. -/

namespace Loop

variable {σ σ' ε ε' α α' : Type} {step : σ → Except ε (σ ⊕ α)} {step' : σ' → Except ε' (σ' ⊕ α')}

/-- From here the loop ends with a result. -/
def Ends (step : σ → Except ε (σ ⊕ α)) (a : α) (s : σ) : Prop :=
  ∃ rounds, run step rounds s = some (.ok a)

/-- What holds from a state on to all that follow holds up to the last one. -/
theorem Ends.last {a : α} {s : σ} {P : σ → Prop} (h : Ends step a s) (hs : P s)
    (hstep : ∀ s s', P s → step s = .ok (.inl s') → P s') :
    ∃ s', P s' ∧ step s' = .ok (.inr a) := by
  obtain ⟨rounds, h⟩ := h
  exact run_end hstep hs h

/-- Loops that stay related round by round end in related results, in the same rounds. -/
theorem run_related {R : σ → σ' → Prop} {Q : α' → Prop} {a : α}
    (hnext : ∀ s s' t, R s s' → step s = .ok (.inl t) → Ends step a t →
      ∃ t', step' s' = .ok (.inl t') ∧ R t t')
    (hend : ∀ s s', R s s' → step s = .ok (.inr a) → ∃ a', step' s' = .ok (.inr a') ∧ Q a')
    {rounds : ℕ} {s : σ} {s' : σ'} (hs : R s s') (h : run step rounds s = some (.ok a)) :
    ∃ a', run step' rounds s' = some (.ok a') ∧ Q a' := by
  induction rounds generalizing s s' with
  | zero => cases h
  | succ rounds ih =>
      unfold run at h
      split at h
      · cases h
      · next b hb =>
          cases h
          obtain ⟨a', ha', hq⟩ := hend s s' hs hb
          refine ⟨a', ?_, hq⟩
          unfold run
          rw [ha']
      · next t ht =>
          obtain ⟨t', ht', hrelated⟩ := hnext s s' t hs ht ⟨rounds, h⟩
          obtain ⟨a', ha', hq⟩ := ih hrelated h
          refine ⟨a', ?_, hq⟩
          unfold run
          rw [ht']
          exact ha'

end Loop
