import Ratect.Cleanup

/-! # The order of the stops

What `dependents_to_stop_first` returns: for each container to remove, those of the others that
depend on it, at any depth and through containers that were never created
(`mem_dependentsToStopFirst`); and the list of the removals has what was created. -/

namespace Ratect

open PostOrder (Edge)

namespace Graph

variable {graph : Graph} {name : String}

theorem get_eq_of_find? {entry : String × List String}
    (h : (graph.find? fun entry => entry.1 == name) = some entry) : graph.get name = entry.2 := by
  unfold get
  rw [h]

@[simp] theorem keys_map (f : String × List String → List String) :
    keys (graph.map fun entry => (entry.1, f entry)) = graph.keys := by
  simp [keys, List.map_map, Function.comp_def]

/-- An update of every entry, at one of them. -/
theorem get_map (f : String → List String → List String) (h : name ∈ graph.keys) :
    get (graph.map fun entry => (entry.1, f entry.1 entry.2)) name = f name (graph.get name) := by
  obtain ⟨entry, hentry⟩ : ∃ entry, (graph.find? fun entry => entry.1 == name) = some entry := by
    rw [← Option.isSome_iff_exists, List.find?_isSome]
    simpa [keys] using h
  have hkey : entry.1 = name := by simpa using List.find?_some hentry
  rw [get_eq_of_find? hentry]
  unfold get
  rw [List.find?_map]
  have hcomp : ((fun e : String × List String => e.1 == name) ∘
      fun entry : String × List String => (entry.1, f entry.1 entry.2)) =
        fun entry => entry.1 == name := rfl
  rw [hcomp, hentry, Option.map_some, hkey]

end Graph

theorem mem_allDependencies (graph : Graph) (name x : String) :
    x ∈ allDependencies graph name ↔ Relation.TransGen (Edge graph.get) name x := by
  have hnodes : ∀ a, ∀ b ∈ graph.get a, b ∈ (graph.flatMap Prod.snd).toFinset := by
    intro a b hb
    unfold Graph.get at hb
    split at hb
    · next entry hentry =>
        rw [List.mem_toFinset, List.mem_flatMap]
        exact ⟨entry, List.mem_of_find?_eq_some hentry, hb⟩
    · cases hb
  exact PostOrder.mem_reach hnodes (Nat.lt_succ_of_le (List.toFinset_card_le _)) name x

theorem mem_foldl_addDependent (graph : Graph) {name d : String} (todo : List String) (acc : Graph)
    (hname : name ∈ acc.keys) :
    d ∈ (todo.foldl (addDependent graph) acc).get name ↔
      d ∈ acc.get name ∨ d ∈ todo ∧ Relation.TransGen (Edge graph.get) d name := by
  induction todo generalizing acc with
  | nil => simp
  | cons dependent todo ih =>
      have hget : (addDependent graph acc dependent).get name =
          if name ∈ allDependencies graph dependent then acc.get name ++ [dependent]
          else acc.get name :=
        Graph.get_map (fun n l =>
          if n ∈ allDependencies graph dependent then l ++ [dependent] else l)
          hname
      rw [List.foldl_cons, ih _ (by simpa [addDependent] using hname), hget]
      split_ifs with hreach
      · rw [mem_allDependencies] at hreach
        simp only [List.mem_append, List.mem_cons, List.not_mem_nil, or_false]
        constructor
        · rintro ((h | rfl) | h)
          · exact .inl h
          · exact .inr ⟨.inl rfl, hreach⟩
          · exact .inr ⟨.inr h.1, h.2⟩
        · rintro (h | ⟨rfl | h, hd⟩)
          · exact .inl (.inl h)
          · exact .inl (.inr rfl)
          · exact .inr ⟨h, hd⟩
      · rw [mem_allDependencies] at hreach
        simp only [List.mem_cons]
        constructor
        · rintro (h | h)
          · exact .inl h
          · exact .inr ⟨.inr h.1, h.2⟩
        · rintro (h | ⟨rfl | h, hd⟩)
          · exact .inl h
          · exact absurd hd hreach
          · exact .inr ⟨h, hd⟩

/-- A container waits for the created ones that depend on it, at any depth. -/
theorem mem_dependentsToStopFirst (graph : Graph) {created : List String} {name d : String}
    (hname : name ∈ created) :
    d ∈ (dependentsToStopFirst graph created).get name ↔
      d ∈ created ∧ Relation.TransGen (Edge graph.get) d name := by
  unfold dependentsToStopFirst
  rw [mem_foldl_addDependent graph created _ (by simpa [Graph.keys, Function.comp_def] using hname)]
  have hnil : Graph.get (created.map fun name => (name, [])) name = [] := by
    unfold Graph.get
    split
    · next entry hentry =>
        obtain ⟨n, _, rfl⟩ := List.mem_map.mp (List.mem_of_find?_eq_some hentry)
        rfl
    · rfl
  rw [hnil]
  simp

theorem keys_dependentsToStopFirst (graph : Graph) (created : List String) :
    (dependentsToStopFirst graph created).keys = created := by
  have hloop : ∀ (todo : List String) (acc : Graph),
      (todo.foldl (addDependent graph) acc).keys = acc.keys := by
    intro todo
    induction todo with
    | nil => exact fun acc => rfl
    | cons dependent todo ih =>
        intro acc
        rw [List.foldl_cons, ih]
        simp [addDependent]
  unfold dependentsToStopFirst
  rw [hloop]
  simp [Graph.keys, Function.comp_def]

theorem removalOrder_perm (root : String) (created : List Removal) :
    (removalOrder root created).Perm created := by
  unfold removalOrder
  have hsplit := List.filter_append_perm (fun r : Removal => decide (r.name = root)) created
  refine List.Perm.trans ?_ hsplit
  apply List.Perm.append_left
  refine (List.perm_insertionSort _ _).trans ?_
  simp

end Ratect
