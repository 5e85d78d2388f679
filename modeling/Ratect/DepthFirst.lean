import Mathlib

/-! # Depth-first order of labelled nodes

Nodes carry a label beside their key: `next n` are the nodes that follow `n`, in order, and a node
is visited unless one with the same key was.  So the first node to arrive at a key decides with
which label the key is visited.  `Walk next key seen todo seen'` says that a depth-first walk takes
the nodes `todo` from the visited nodes `seen` to `seen'`; what it visits is closed under `next`,
key by key (`Walk.closed`). -/

namespace DepthFirst

variable {ν κ : Type}

/-- The walk over a list of nodes, from the visited nodes `seen` to `seen'`. -/
inductive Walk (next : ν → List ν) (key : ν → κ) : List ν → List ν → List ν → Prop
  | nil (seen : List ν) : Walk next key seen [] seen
  | skip {seen seen' todo : List ν} {n : ν} :
      key n ∈ seen.map key → Walk next key seen todo seen' → Walk next key seen (n :: todo) seen'
  | visit {seen mid seen' todo : List ν} {n : ν} :
      key n ∉ seen.map key → Walk next key (seen ++ [n]) (next n) mid →
        Walk next key mid todo seen' →
      Walk next key seen (n :: todo) seen'

section evaluate

variable [DecidableEq κ] (next : ν → List ν) (key : ν → κ)

/-- The walk from one node, at most so deep. -/
def walk : ℕ → List ν → ν → Option (List ν)
  | 0, _, _ => none
  | depth + 1, seen, n =>
      if key n ∈ seen.map key then some seen else (next n).foldlM (walk depth) (seen ++ [n])

end evaluate

variable {next : ν → List ν} {key : ν → κ}

/-- What the evaluated walk visits, the walk visits. -/
theorem walk_of_foldlM [DecidableEq κ] {depth : ℕ} {seen todo seen' : List ν}
    (h : todo.foldlM (walk next key depth) seen = some seen') : Walk next key seen todo seen' := by
  induction depth generalizing seen todo seen' with
  | zero =>
      cases todo with
      | nil =>
          cases h
          exact .nil seen
      | cons n todo => cases h
  | succ depth ih =>
      induction todo generalizing seen with
      | nil =>
          cases h
          exact .nil _
      | cons n todo ihtodo =>
          rw [List.foldlM_cons] at h
          obtain ⟨mid, hmid, h⟩ := Option.bind_eq_some_iff.mp h
          unfold walk at hmid
          split at hmid
          · next hseen =>
              cases hmid
              exact .skip hseen (ihtodo h)
          · next hseen => exact .visit hseen (ih hmid) (ihtodo h)

theorem Walk.mono {seen todo seen' : List ν} (h : Walk next key seen todo seen') {n : ν}
    (hn : n ∈ seen) : n ∈ seen' := by
  induction h with
  | nil seen => exact hn
  | skip _ _ ih => exact ih hn
  | visit _ _ _ ih ih' => exact ih' (ih (List.mem_append_left _ hn))

theorem Walk.mono_keys {seen todo seen' : List ν} (h : Walk next key seen todo seen') {k : κ}
    (hk : k ∈ seen.map key) : k ∈ seen'.map key := by
  obtain ⟨n, hn, rfl⟩ := List.mem_map.mp hk
  exact List.mem_map_of_mem (h.mono hn)

/-- Every node of the list is visited, or another one with its key. -/
theorem Walk.todo {seen todo seen' : List ν} (h : Walk next key seen todo seen') {n : ν}
    (hn : n ∈ todo) : key n ∈ seen'.map key := by
  induction h with
  | nil seen => cases hn
  | skip hseen hrest ih =>
      rcases List.mem_cons.mp hn with rfl | hn
      · exact hrest.mono_keys hseen
      · exact ih hn
  | visit _ hnext hrest _ ih =>
      rcases List.mem_cons.mp hn with rfl | hn
      · exact List.mem_map_of_mem
          (hrest.mono (hnext.mono (List.mem_append_right _ List.mem_cons_self)))
      · exact ih hn

/-- What follows a newly visited node is visited too. -/
theorem Walk.closed {seen todo seen' : List ν} (h : Walk next key seen todo seen') {n : ν}
    (hn : n ∈ seen') : n ∈ seen ∨ ∀ m ∈ next n, key m ∈ seen'.map key := by
  induction h with
  | nil seen => exact Or.inl hn
  | skip _ _ ih => exact ih hn
  | @visit seen mid seen' todo a _ hnext hrest ih ih' =>
      rcases ih' hn with hmid | hclosed
      · rcases ih hmid with hseen | hclosed
        · rcases List.mem_append.mp hseen with hseen | hself
          · exact Or.inl hseen
          · obtain rfl := List.mem_singleton.mp hself
            exact Or.inr fun m hm => hrest.mono_keys (hnext.todo hm)
        · exact Or.inr fun m hm => hrest.mono_keys (hclosed m hm)
      · exact Or.inr hclosed

end DepthFirst
