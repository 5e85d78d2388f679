import Mathlib

/-! # Lists matched one to one

Two lists whose elements can be paired off by a relation, whatever order either is in (`Matched`).
What holds of one side of every pair can be carried to the other list. -/

/-- Each element of one list has a partner of its own in the other. -/
def Matched {α β : Type} (R : α → β → Prop) : List α → List β → Prop :=
  Relation.Comp (List.Forall₂ R) List.Perm

namespace Matched

variable {α β γ : Type} {R : α → β → Prop} {l : List α} {l' : List β}

theorem of_forall₂ (h : List.Forall₂ R l l') : Matched R l l' := ⟨l', h, List.Perm.refl _⟩

theorem perm (h : Matched R l l') {r : List β} (hperm : r.Perm l') : Matched R l r := by
  obtain ⟨m, hm, hmatch⟩ := h
  exact ⟨m, hm, hmatch.trans hperm.symm⟩

theorem mono (h : Matched R l l') {S : α → β → Prop}
    (himp : ∀ a ∈ l, ∀ b, R a b → S a b) : Matched S l l' := by
  obtain ⟨m, hm, hperm⟩ := h
  refine ⟨m, ?_, hperm⟩
  refine ((List.forall₂_and_left _ _).mpr ⟨fun a ha => ha, hm⟩).imp ?_
  rintro a b ⟨ha, hab⟩
  exact himp a ha b hab

/-- Every element of the second list is the partner of one of the first. -/
theorem mem_right (h : Matched R l l') {b : β} (hb : b ∈ l') : ∃ a ∈ l, R a b := by
  obtain ⟨m, hm, hperm⟩ := h
  have hb := hperm.mem_iff.mpr hb
  clear hperm
  induction hm with
  | nil => cases hb
  | @cons a c l m hac _ ih =>
      rcases List.mem_cons.mp hb with rfl | hb
      · exact ⟨a, List.mem_cons_self, hac⟩
      · obtain ⟨a', ha', hab⟩ := ih hb
        exact ⟨a', List.mem_cons_of_mem _ ha', hab⟩

/-- Every element of the first list has a partner in the second. -/
theorem mem_left (h : Matched R l l') {a : α} (ha : a ∈ l) : ∃ b ∈ l', R a b := by
  obtain ⟨m, hm, hperm⟩ := h
  have hfound : ∃ b ∈ m, R a b := by
    clear hperm
    induction hm with
    | nil => cases ha
    | @cons c b l m hcb _ ih =>
        rcases List.mem_cons.mp ha with rfl | ha
        · exact ⟨b, List.mem_cons_self, hcb⟩
        · obtain ⟨b', hb', hab⟩ := ih ha
          exact ⟨b', List.mem_cons_of_mem _ hb', hab⟩
  obtain ⟨b, hb, hab⟩ := hfound
  exact ⟨b, hperm.mem_iff.mp hb, hab⟩

/-- What is matched has the same image, up to order, where the partners of a pair have the same
one. -/
theorem map_perm (h : Matched R l l') {f : α → γ} {g : β → γ} (hsame : ∀ a b, R a b → g b = f a) :
    (l'.map g).Perm (l.map f) := by
  obtain ⟨m, hm, hperm⟩ := h
  have heq : m.map g = l.map f := by
    clear hperm
    induction hm with
    | nil => rfl
    | cons hab _ ih => rw [List.map_cons, List.map_cons, hsame _ _ hab, ih]
  rw [← heq]
  exact (hperm.map g).symm

theorem flatMap {as : List γ} {f : γ → List α} {g : γ → List β}
    (h : ∀ c ∈ as, Matched R (f c) (g c)) : Matched R (as.flatMap f) (as.flatMap g) := by
  induction as with
  | nil => exact of_forall₂ .nil
  | cons c as ih =>
      obtain ⟨m, hm, hperm⟩ := h c List.mem_cons_self
      obtain ⟨ms, hms, hperms⟩ := ih fun c' hc' => h c' (List.mem_cons_of_mem _ hc')
      exact ⟨m ++ ms, List.rel_append hm hms, hperm.append hperms⟩

end Matched
