import Mathlib

/-! # Companions in a graph

A graph in which some nodes get a companion: a fresh node with one edge, to its own node, that
chosen nodes with an edge to that node now lead to as well.  Apart from the companions everything
reaches what it reached (`reaches_iff`), and the graph has a cycle exactly if it had one
(`acyclic_iff`). -/

/-- The edges once the nodes of `C` have their companions; `W` says who leads to a companion. -/
inductive WithCompanions {α : Type} (R W : α → α → Prop) (C : α → Prop) (companion : α → α) :
    α → α → Prop
  | kept {a b : α} : R a b → WithCompanions R W C companion a b
  | waits {a c : α} : C c → W a c → WithCompanions R W C companion a (companion c)
  | own {c : α} : C c → WithCompanions R W C companion (companion c) c

/-- Companions are fresh, each is that of one node, and only what leads to a node leads to its
companion. -/
structure FreshCompanions {α : Type} (R W : α → α → Prop) (C : α → Prop)
    (companion : α → α) : Prop where
  of_waits : ∀ a c, W a c → R a c
  no_edge_from : ∀ c x, C c → ¬ R (companion c) x
  no_edge_to : ∀ c x, C c → ¬ R x (companion c)
  injective : ∀ c c', companion c = companion c' → c = c'
  apart : ∀ c c', C c → C c' → companion c ≠ c'

namespace FreshCompanions

variable {α : Type} {R W : α → α → Prop} {C : α → Prop} {companion : α → α}

theorem reaches_of_reaches {a b : α} (h : Relation.ReflTransGen R a b) :
    Relation.ReflTransGen (WithCompanions R W C companion) a b :=
  Relation.ReflTransGen.mono (fun _ _ hR => .kept hR) a b h

/-- The companion of a node leads to that node alone. -/
theorem edge_from_companion (h : FreshCompanions R W C companion) {c b : α} (hc : C c)
    (hedge : WithCompanions R W C companion (companion c) b) : b = c := by
  generalize hstart : companion c = a at hedge
  cases hedge with
  | kept hR => exact absurd (hstart ▸ hR) (h.no_edge_from c b hc)
  | waits _ hW => exact absurd (hstart ▸ h.of_waits _ _ hW) (h.no_edge_from c _ hc)
  | own _ => exact (h.injective _ _ hstart).symm

/-- One step from a node that is no companion leads to a node that it led to, or to such a node's
companion. -/
theorem edge_cases (h : FreshCompanions R W C companion) {a b : α} (ha : ∀ c, C c → a ≠ companion c)
    (hedge : WithCompanions R W C companion a b) :
    ((∀ c, C c → b ≠ companion c) ∧ R a b) ∨ ∃ c, C c ∧ b = companion c ∧ W a c := by
  cases hedge with
  | kept hR => exact Or.inl ⟨fun c hc hb => h.no_edge_to c a hc (hb ▸ hR), hR⟩
  | waits hc hW => exact Or.inr ⟨_, hc, rfl, hW⟩
  | own hc => exact absurd rfl (ha _ hc)

/-- A path from a node that is no companion, with every detour through a companion cut short. -/
theorem transGen_cases (h : FreshCompanions R W C companion) {a b : α}
    (ha : ∀ c, C c → a ≠ companion c)
    (hpath : Relation.TransGen (WithCompanions R W C companion) a b) :
    ((∀ c, C c → b ≠ companion c) ∧ Relation.TransGen R a b) ∨
      ∃ c, C c ∧ b = companion c ∧ Relation.TransGen R a c := by
  induction hpath with
  | single hedge =>
      rcases h.edge_cases ha hedge with ⟨hb, hR⟩ | ⟨c, hc, hb, hW⟩
      · exact Or.inl ⟨hb, .single hR⟩
      · exact Or.inr ⟨c, hc, hb, .single (h.of_waits _ _ hW)⟩
  | @tail m d _ hedge ih =>
      rcases ih with ⟨hm, hR⟩ | ⟨c, hc, rfl, hR⟩
      · rcases h.edge_cases hm hedge with ⟨hd, hR'⟩ | ⟨c, hc, hd, hW⟩
        · exact Or.inl ⟨hd, hR.tail hR'⟩
        · exact Or.inr ⟨c, hc, hd, hR.tail (h.of_waits _ _ hW)⟩
      · obtain rfl := h.edge_from_companion hc hedge
        exact Or.inl ⟨fun c' hc' hd => h.apart c' d hc' hc hd.symm, hR⟩

/-- Companions close no circle, and open none. -/
theorem acyclic_iff (h : FreshCompanions R W C companion) :
    (∀ n, ¬ Relation.TransGen (WithCompanions R W C companion) n n) ↔
      ∀ n, ¬ Relation.TransGen R n n := by
  constructor
  · intro hacyclic n hcycle
    exact hacyclic n (Relation.TransGen.mono (fun _ _ hR => WithCompanions.kept hR) n n hcycle)
  · intro hacyclic n hcycle
    by_cases hn : ∀ c, C c → n ≠ companion c
    · rcases h.transGen_cases hn hcycle with ⟨-, hR⟩ | ⟨c, hc, hnc, -⟩
      · exact hacyclic n hR
      · exact hn c hc hnc
    · push Not at hn
      obtain ⟨c, hc, rfl⟩ := hn
      -- the only way on from the companion is its own node, and from there the path comes back to
      -- it
      obtain ⟨b, hedge, hrest⟩ := Relation.TransGen.head'_iff.mp hcycle
      obtain rfl := h.edge_from_companion hc hedge
      have hb : ∀ c', C c' → b ≠ companion c' := fun c' hc' hbc => h.apart c' b hc' hc hbc.symm
      rcases Relation.reflTransGen_iff_eq_or_transGen.mp hrest with heq | hpath
      · exact hb b hc heq.symm
      · rcases h.transGen_cases hb hpath with ⟨hne, -⟩ | ⟨c, _, hbc, hR⟩
        · exact hne b hc rfl
        · rw [h.injective _ _ hbc] at hR
          exact hacyclic c hR

/-- What is reached: what was, and the companions that something reached leads to. -/
theorem reaches_iff (h : FreshCompanions R W C companion) {a n : α}
    (ha : ∀ c, C c → a ≠ companion c) :
    Relation.ReflTransGen (WithCompanions R W C companion) a n ↔
      Relation.ReflTransGen R a n ∨
        ∃ c, C c ∧ n = companion c ∧ ∃ m, Relation.ReflTransGen R a m ∧ W m c := by
  have hplain : ∀ m, Relation.ReflTransGen R a m → ∀ c, C c → m ≠ companion c := by
    intro m hm c hc
    cases hm with
    | refl => exact ha c hc
    | tail _ hR => exact fun hmc => h.no_edge_to c _ hc (hmc ▸ hR)
  constructor
  · intro hpath
    induction hpath with
    | refl => exact Or.inl .refl
    | @tail m d _ hedge ih =>
        rcases ih with hm | ⟨c, hc, rfl, m', hm', hW⟩
        · rcases h.edge_cases (hplain m hm) hedge with ⟨-, hR⟩ | ⟨c, hc, hd, hW⟩
          · exact Or.inl (hm.tail hR)
          · exact Or.inr ⟨c, hc, hd, m, hm, hW⟩
        · obtain rfl := h.edge_from_companion hc hedge
          exact Or.inl (hm'.tail (h.of_waits _ _ hW))
  · rintro (hn | ⟨c, hc, rfl, m, hm, hW⟩)
    · exact reaches_of_reaches hn
    · exact (reaches_of_reaches hm).tail (.waits hc hW)

end FreshCompanions
