import Ratect.ProjectRun

/-! # The graph of a task and the names in it

`build_dependency_graph` (`engine.rs`) and `container_names_in_task` (`config.rs`) walk the same
edges: each container's dependencies, and from the task's own container the task's dependencies too
(`TaskEdge`).  The second walk returns what is reached along them (`mem_containerNamesInTask`).  The
first returns a graph exactly if all that is reached is declared and on no cycle, and then the graph
has the same names, with their edges in order (`build_dependency_graph_exact`). -/

namespace Ratect

open PostOrder (Edge Reaches)

section edges

variable (declared : IndexMap String Config.Container) (root : String)
    (taskDependencies : Option (List String))

/-- An edge of a task: to a dependency of the container, or from the task's own container to one of
the task's. -/
def TaskEdge (name dependency : String) : Prop :=
  dependency ∈ dependenciesOfName declared name ∨
    (name = root ∧ dependency ∈ taskDependencies.getD [])

/-- What a task reaches. -/
def InTask (name : String) : Prop :=
  Relation.ReflTransGen (TaskEdge declared root taskDependencies) root name

/-- The second walk returns what the task reaches. -/
theorem mem_containerNamesInTask (name : String) :
    name ∈ containerNamesInTask declared root taskDependencies ↔
      InTask declared root taskDependencies name := by
  obtain ⟨hroot, htask, hclosed⟩ := containerNamesInTask_closed declared root taskDependencies
  constructor
  · refine fun hname => namesInTaskFrom_within ?_ ?_ ?_ name hname
    · exact fun n hn d hd => hn.tail (Or.inl hd)
    · intro n hn
      rcases List.mem_cons.mp (List.mem_reverse.mp hn) with rfl | hn
      · exact .refl
      · exact .single (Or.inr ⟨rfl, hn⟩)
    · exact fun n hn => absurd hn List.not_mem_nil
  · intro hname
    induction hname with
    | refl => exact hroot
    | @tail n d _ hedge ih =>
        rcases hedge with hd | ⟨-, hd⟩
        · exact hclosed n ih hd
        · exact htask hd

end edges

/-! ### The walk that builds the graph -/

/-- The container map with what the walk reads of it. -/
def dependencyMap (declared : IndexMap String Config.Container) : Containers where
  entries := declared.entries.map fun e => (e.1, { e.2.forEngine with networkMode := none })
  nodup := by
    rw [List.map_map]
    exact declared.nodup
  targets := by
    intro e he target htarget
    obtain ⟨_, -, rfl⟩ := List.mem_map.mp he
    cases htarget

theorem get?_dependencyMap (declared : IndexMap String Config.Container) (name : String) :
    (dependencyMap declared).get? name =
      (declared.get? name).map fun c => { c.forEngine with networkMode := none } := by
  unfold Containers.get? IndexMap.get? dependencyMap
  dsimp only
  rw [List.find?_map, Option.map_map, Option.map_map]
  congr 1

/-- Where the edges run through no cycle, the walk meets none: each name on its path has an edge, or
several in a row, to the name that is visited. -/
theorem visitContainer_uncircular {containers : Containers} {R : String → String → Prop}
    {P : String → Prop} (hnext : ∀ n d, P n → R n d → P d)
    (hacyclic : ∀ n, P n → ¬ Relation.TransGen R n n)
    (hedges : ∀ n container,
      containers.get? n = some container → ∀ d ∈ container.dependencies.getD [], R n d)
    (fuel : ℕ) {name : String} {extra : Option (List String)} (hname : P name)
    (hextra : ∀ d ∈ extra.getD [], R name d) {path : List String}
    (hpath : ∀ p ∈ path, Relation.TransGen R p name) (graph : Graph) (x : String) :
    visitContainer containers fuel name extra path graph ≠ .error (.circular x) := by
  induction fuel generalizing name extra path graph with
  | zero => exact fun h => by cases h
  | succ fuel ih =>
      rw [visitContainer]
      split_ifs with hdone hon
      · exact fun h => by cases h
      · exact absurd (hpath name hon) (hacyclic name hname)
      · cases hc : containers.get? name with
        | none => exact fun h => by cases h
        | some container =>
            dsimp only
            have hdeps : visitDependencies
                (fun d => visitContainer containers fuel d none (path ++ [name]))
                (sortedDependencies container extra) graph ≠ .error (.circular x) := by
              apply visitDependencies_ne
              intro d hd g
              have hedge : R name d := by
                rcases (mem_sortedDependencies container extra d).mp hd with hd | hd
                · exact hedges name container hc d hd
                · exact hextra d hd
              apply ih (hnext name d hname hedge)
              · simp
              · intro p hp
                rcases List.mem_append.mp hp with hp | hp
                · exact (hpath p hp).tail hedge
                · rw [List.mem_singleton.mp hp]
                  exact .single hedge
            cases hv : visitDependencies
              (fun d => visitContainer containers fuel d none (path ++ [name]))
                (sortedDependencies container extra) graph with
            | error e =>
                intro h
                exact hdeps (hv.trans h)
            | ok g => exact fun h => by cases h

theorem dedupAdjacent_sorted {l : List String} (h : l.Pairwise (· ≤ ·)) :
    (dedupAdjacent l).Pairwise (· < ·) := by
  induction l using dedupAdjacent.induct with
  | case1 => exact List.Pairwise.nil
  | case2 a => exact List.pairwise_singleton _ _
  | case3 a rest ih =>
      rw [dedupAdjacent, if_pos rfl]
      exact ih h.of_cons
  | case4 a b rest hab ih =>
      rw [dedupAdjacent, if_neg hab, List.pairwise_cons]
      refine ⟨fun x hx => ?_, ih h.of_cons⟩
      rw [mem_dedupAdjacent] at hx
      have hb : a < b := lt_of_le_of_ne (List.rel_of_pairwise_cons h List.mem_cons_self) hab
      rcases List.mem_cons.mp hx with rfl | hx
      · exact hb
      · exact hb.trans_le (List.rel_of_pairwise_cons h.of_cons hx)

section graph

variable {declared : IndexMap String Config.Container} {root : String}
    {taskDependencies : Option (List String)}

/-- What the graph lists for a declared container: its edges, in order, each once. -/
theorem dependenciesOf_declared {name : String} (h : name ∈ declared.keys) :
    (dependenciesOf (dependencyMap declared) root taskDependencies name).Pairwise (· < ·) ∧
      ∀ d, d ∈ dependenciesOf (dependencyMap declared) root taskDependencies name ↔
        TaskEdge declared root taskDependencies name d := by
  obtain ⟨container, hcontainer⟩ := IndexMap.mem_keys_iff.mp h
  have hget := IndexMap.get?_of_mem hcontainer
  have hmap : (dependencyMap declared).get? name =
      some { container.forEngine with networkMode := none } := by
    rw [get?_dependencyMap, hget]
    rfl
  rw [dependenciesOf_eq hmap]
  refine ⟨dedupAdjacent_sorted (List.pairwise_insertionSort _ _), fun d => ?_⟩
  rw [mem_sortedDependencies]
  unfold TaskEdge dependenciesOfName
  rw [hget]
  by_cases hroot : name = root
  · rw [if_pos hroot]
    simp only [hroot, true_and]
    exact Iff.rfl
  · rw [if_neg hroot]
    simp only [hroot, false_and, or_false, Option.getD_none, List.not_mem_nil]
    exact Iff.rfl

/-- The names of a graph that is returned are those that the task reaches, and all are declared. -/
theorem GraphOf.mem_keys_iff {graph : Graph}
    (h : buildDependencyGraph (dependencyMap declared) root taskDependencies = .ok graph)
    (name : String) :
    (name ∈ graph.keys ↔ InTask declared root taskDependencies name) ∧
      (name ∈ graph.keys → name ∈ declared.keys) := by
  have hspec := buildDependencyGraph_spec h
  have hdeclared : ∀ n ∈ graph.keys, n ∈ declared.keys := by
    intro n hn
    obtain ⟨container, hget⟩ := hspec.declared n hn
    rw [get?_dependencyMap] at hget
    obtain ⟨written, hwritten, -⟩ := Option.map_eq_some_iff.mp hget
    exact IndexMap.mem_keys_iff.mpr ⟨written, IndexMap.mem_entries_of_get? hwritten⟩
  have hgrows : Grows (dependencyMap declared) root taskDependencies [] [root] [] graph :=
    visitContainer_grows (by simp) (.inl rfl) h
  refine ⟨⟨fun hname => ?_, fun hname => ?_⟩, hdeclared name⟩
  · obtain ⟨new, hnew, hreached⟩ := hgrows.walk.exists_new
    rw [hnew] at hname
    obtain ⟨a, ha, hreaches⟩ := hreached name (by simpa [Graph.keys] using hname)
    rw [List.mem_singleton.mp ha] at hreaches
    refine Relation.ReflTransGen.mono (fun n d hd => ?_) _ _ hreaches
    by_cases hn : n ∈ declared.keys
    · exact ((dependenciesOf_declared hn).2 d).mp hd
    · have hnone : declared.get? n = none := by
        by_contra hsome
        obtain ⟨container, hcontainer⟩ := Option.ne_none_iff_exists'.mp hsome
        exact hn (IndexMap.mem_keys_iff.mpr ⟨container, IndexMap.mem_entries_of_get? hcontainer⟩)
      unfold Edge dependenciesOf at hd
      rw [get?_dependencyMap, hnone] at hd
      cases hd
  · induction hname with
    | refl => exact hspec.root_mem
    | @tail n d _ hedge ih =>
        apply hspec.dependency_mem ih
        rw [hspec.lists n ih]
        exact ((dependenciesOf_declared (hdeclared n ih)).2 d).mpr hedge

end graph

/-- **The graph of a task, exactly.**  For every container map, task container and task
dependencies: a graph is returned exactly if all that the task reaches is declared and none of it is
on a cycle.  Its names are then those of `container_names_in_task`, each with one entry that lists
its edges in order and each once, and it has no cycle. -/
theorem build_dependency_graph_exact (declared : IndexMap String Config.Container) (root : String)
    (taskDependencies : Option (List String)) :
    ((∃ graph, buildDependencyGraph (dependencyMap declared) root taskDependencies = .ok graph) ↔
      (∀ name, InTask declared root taskDependencies name → name ∈ declared.keys) ∧
        ∀ name, InTask declared root taskDependencies name →
          ¬ Relation.TransGen (TaskEdge declared root taskDependencies) name name) ∧
    ∀ graph, buildDependencyGraph (dependencyMap declared) root taskDependencies = .ok graph →
      graph.keys.Nodup ∧
      (∀ name, name ∈ graph.keys ↔ name ∈ containerNamesInTask declared root taskDependencies) ∧
      (∀ name ∈ graph.keys, (graph.get name).Pairwise (· < ·) ∧
        ∀ d, d ∈ graph.get name ↔ TaskEdge declared root taskDependencies name d) ∧
      ∀ name, ¬ Relation.TransGen (Edge graph.get) name name := by
  have hlisted : ∀ graph,
      buildDependencyGraph (dependencyMap declared) root taskDependencies = .ok graph →
      ∀ name ∈ graph.keys, (graph.get name).Pairwise (· < ·) ∧
        ∀ d, d ∈ graph.get name ↔ TaskEdge declared root taskDependencies name d := by
    intro graph hgraph name hname
    rw [(buildDependencyGraph_spec hgraph).lists name hname]
    exact dependenciesOf_declared ((GraphOf.mem_keys_iff hgraph name).2 hname)
  refine ⟨⟨?_, ?_⟩, ?_⟩
  · rintro ⟨graph, hgraph⟩
    have hspec := buildDependencyGraph_spec hgraph
    have hkeys := GraphOf.mem_keys_iff hgraph
    refine ⟨fun name hname => (hkeys name).2 ((hkeys name).1.mpr hname),
      fun name hname hcycle => ?_⟩
    -- Along the cycle every name is in the graph, so the edges are the graph's own.
    have hlift : ∀ x, Relation.TransGen (TaskEdge declared root taskDependencies) name x →
        x ∈ graph.keys ∧ Relation.TransGen (Edge graph.get) name x := by
      intro x hx
      induction hx with
      | single hedge =>
          have hmem := (hkeys name).1.mpr hname
          have hd := ((hlisted graph hgraph name hmem).2 _).mpr hedge
          exact ⟨hspec.dependency_mem hmem hd, .single hd⟩
      | @tail n d _ hedge ih =>
          have hd := ((hlisted graph hgraph n ih.1).2 _).mpr hedge
          exact ⟨hspec.dependency_mem ih.1 hd, ih.2.tail hd⟩
    exact hspec.acyclic name (hlift name hcycle).2
  · rintro ⟨hdeclared, hacyclic⟩
    have hedges : ∀ n container, (dependencyMap declared).get? n = some container →
        ∀ d ∈ container.dependencies.getD [], TaskEdge declared root taskDependencies n d := by
      intro n container hget d hd
      rw [get?_dependencyMap] at hget
      obtain ⟨written, hwritten, rfl⟩ := Option.map_eq_some_iff.mp hget
      left
      unfold dependenciesOfName
      rw [hwritten]
      exact hd
    cases hbuild : buildDependencyGraph (dependencyMap declared) root taskDependencies with
    | ok graph => exact ⟨graph, rfl⟩
    | error e =>
        exfalso
        cases e with
        | outOfFuel => exact buildDependencyGraph_ne_outOfFuel hbuild
        | circular x =>
            refine visitContainer_uncircular (P := InTask declared root taskDependencies)
              (fun n d hn hedge => hn.tail hedge) hacyclic hedges _ .refl ?_ ?_ [] x hbuild
            · exact fun d hd => Or.inr ⟨rfl, hd⟩
            · exact fun p hp => absurd hp List.not_mem_nil
        | undeclared x =>
            refine visitContainer_declared (P := InTask declared root taskDependencies) ?_
              _ .refl ?_ [] [] x hbuild
            · intro n hn
              obtain ⟨container, hcontainer⟩ := IndexMap.mem_keys_iff.mp (hdeclared n hn)
              have hget : (dependencyMap declared).get? n =
                  some { container.forEngine with networkMode := none } := by
                rw [get?_dependencyMap, IndexMap.get?_of_mem hcontainer]
                rfl
              exact ⟨_, hget, fun d hd => hn.tail (hedges n _ hget d hd)⟩
            · exact fun d hd => .single (Or.inr ⟨rfl, hd⟩)
  · intro graph hgraph
    have hspec := buildDependencyGraph_spec hgraph
    refine ⟨hspec.nodup, fun name => ?_, hlisted graph hgraph, hspec.acyclic⟩
    rw [(GraphOf.mem_keys_iff hgraph name).1, mem_containerNamesInTask]

end Ratect
