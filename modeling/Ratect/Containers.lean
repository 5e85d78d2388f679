import Ratect.PostOrder
import Ratect.Prerequisites

/-! # Containers and the dependency graph of a task

The container map as the loader leaves it, and `build_dependency_graph`, the depth-first walk that
every task's start-up and cleanup follow (`engine.rs`).

A graph that the walk returns is `PostOrder.Walk`'s list of finished containers, each with its
sorted dependencies (`visitContainer_grows`).  From it: every container has its dependencies
before it, so the graph is closed and acyclic, each name has one entry, and the task's own
container comes last, so nothing depends on it (`GraphOf`). -/

namespace Ratect

open PostOrder (Walk Ordered Edge Reaches)

/-! ### The container map -/

/-- `image_pull_policy`. -/
inductive ImagePullPolicy where
  | ifNotPresent
  | always
deriving DecidableEq, Repr

/-- `network_mode`. -/
inductive NetworkMode where
  | host
  | none
  | container (target : String)
deriving DecidableEq, Repr

/-- A setup command: what it runs, and where if not in its own container. -/
structure SetupCommand where
  command : String
  runIn : Option String
deriving DecidableEq, Repr

/-- A container, with the fields that start-up and cleanup read.  Of `identity`, `user` and
`external_health_check` only whether they are set matters here. -/
structure Container where
  dependencies : Option (List String)
  image : Option String
  imagePullPolicy : Option ImagePullPolicy
  buildDirectory : Option String
  networkMode : Option NetworkMode
  setupCommands : Option (List SetupCommand)
  runToCompletion : Option Bool
  externalHealthCheck : Bool
  reportsReadinessFor : Option String
  identity : Bool
  user : Bool
deriving DecidableEq, Repr

/-- The container map, each name once.  `validate_network_modes` has refused a `container:` target
that is not one of the container's own dependencies. -/
structure Containers where
  entries : List (String × Container)
  nodup : (entries.map Prod.fst).Nodup
  targets : ∀ e ∈ entries, ∀ target, e.2.networkMode = some (.container target) →
    target ∈ e.2.dependencies.getD []

namespace Containers

/-- The declared names. -/
def names (containers : Containers) : List String := containers.entries.map Prod.fst

/-- The container of a name. -/
def get? (containers : Containers) (name : String) : Option Container :=
  (containers.entries.find? fun e => e.1 == name).map Prod.snd

theorem mem_entries_of_get? {containers : Containers} {name : String} {container : Container}
    (h : containers.get? name = some container) : (name, container) ∈ containers.entries := by
  unfold get? at h
  obtain ⟨e, he, rfl⟩ := Option.map_eq_some_iff.mp h
  have hn : e.1 = name := by simpa using List.find?_some he
  rw [← hn]
  exact List.mem_of_find?_eq_some he

theorem mem_names_of_get? {containers : Containers} {name : String} {container : Container}
    (h : containers.get? name = some container) : name ∈ containers.names :=
  List.mem_map_of_mem (mem_entries_of_get? h)

end Containers

/-! ### The graph -/

/-- A dependency graph (`HashMap<String, Vec<String>>`), in the order of insertion. -/
abbrev Graph := List (String × List String)

namespace Graph

/-- The containers of the graph. -/
def keys (graph : Graph) : List String := graph.map Prod.fst

/-- The dependencies of a container; none where the graph does not know it. -/
def get (graph : Graph) (name : String) : List String :=
  match graph.find? fun e => e.1 == name with
  | some e => e.2
  | none => []

theorem mem_keys_of_get {graph : Graph} {name d : String} (h : d ∈ graph.get name) :
    name ∈ graph.keys := by
  unfold get at h
  split at h
  · next e he =>
      have hkey : e.1 = name := by simpa using List.find?_some he
      rw [← hkey]
      exact List.mem_map_of_mem (List.mem_of_find?_eq_some he)
  · cases h

end Graph

/-- `Vec::dedup`: of equal neighbours the first is kept. -/
def dedupAdjacent : List String → List String
  | [] => []
  | [a] => [a]
  | a :: b :: rest => if a = b then dedupAdjacent (b :: rest) else a :: dedupAdjacent (b :: rest)

/-- The errors of `build_dependency_graph`. -/
inductive GraphError where
  | circular (name : String)
  | undeclared (name : String)
  | outOfFuel
deriving DecidableEq, Repr

/-- The message of an error; an undeclared container is `undeclared_container_bug`. -/
def GraphError.message : GraphError → String
  | circular name => s!"Circular container dependency detected involving '{name}'"
  | undeclared name => s!"Container '{name}' not found — the configuration loader should have " ++
      "refused this reference, so this is a bug in Ratect"
  | outOfFuel => ""

section build

variable (containers : Containers)

/-- The dependencies that a container is entered with: its own and `extra`, sorted, each once. -/
def sortedDependencies (container : Container) (extra : Option (List String)) : List String :=
  dedupAdjacent ((container.dependencies.getD [] ++ extra.getD []).insertionSort (· ≤ ·))

/-- The loop over a container's dependencies. -/
def visitDependencies (visit : String → Graph → Except GraphError Graph) :
    List String → Graph → Except GraphError Graph
  | [], graph => .ok graph
  | dependency :: rest, graph => do
      let graph ← visit dependency graph
      visitDependencies visit rest graph

/-- The inner `visit` of `build_dependency_graph`. -/
def visitContainer : ℕ → String → Option (List String) → List String → Graph →
    Except GraphError Graph
  | 0, _, _, _, _ => .error .outOfFuel
  | fuel + 1, name, extra, path, graph =>
      if name ∈ graph.keys then .ok graph
      else if name ∈ path then .error (.circular name)
      else
        match containers.get? name with
        | none => .error (.undeclared name)
        | some container => do
            let dependencies := sortedDependencies container extra
            let graph ← visitDependencies
              (fun dependency => visitContainer fuel dependency none (path ++ [name]))
              dependencies graph
            return graph ++ [(name, dependencies)]

/-- `build_dependency_graph`. -/
def buildDependencyGraph (root : String) (taskDependencies : Option (List String)) :
    Except GraphError Graph :=
  visitContainer containers (containers.entries.length + 1) root taskDependencies [] []

end build

/-! ### What the walk returns -/

theorem mem_dedupAdjacent (l : List String) (x : String) : x ∈ dedupAdjacent l ↔ x ∈ l := by
  induction l using dedupAdjacent.induct with
  | case1 => exact Iff.rfl
  | case2 a => exact Iff.rfl
  | case3 a rest ih =>
      rw [dedupAdjacent, if_pos rfl, ih]
      simp
  | case4 a b rest hab ih =>
      rw [dedupAdjacent, if_neg hab, List.mem_cons, ih]
      simp

theorem mem_sortedDependencies (container : Container) (extra : Option (List String)) (x : String) :
    x ∈ sortedDependencies container extra ↔
      x ∈ container.dependencies.getD [] ∨ x ∈ extra.getD [] := by
  unfold sortedDependencies
  rw [mem_dedupAdjacent, List.mem_insertionSort, List.mem_append]

section walk

variable (containers : Containers) (root : String) (taskDependencies : Option (List String))

/-- What the graph lists for a container: for the task's own, the task's dependencies too. -/
def dependenciesOf (name : String) : List String :=
  match containers.get? name with
  | none => []
  | some container =>
      sortedDependencies container (if name = root then taskDependencies else none)

/-- A graph that lists `dependenciesOf` for each of its containers. -/
def Lists (graph : Graph) : Prop :=
  ∀ e ∈ graph, e.2 = dependenciesOf containers root taskDependencies e.1

variable {containers root taskDependencies}

theorem Lists.get {graph : Graph} (h : Lists containers root taskDependencies graph) {name : String}
    (hn : name ∈ graph.keys) :
    graph.get name = dependenciesOf containers root taskDependencies name := by
  obtain ⟨e, he, rfl⟩ := List.mem_map.mp hn
  have hfind : ∃ e', graph.find? (fun x => x.1 == e.1) = some e' := by
    rw [← Option.isSome_iff_exists, List.find?_isSome]
    exact ⟨e, he, by simp⟩
  obtain ⟨e', he'⟩ := hfind
  have hname : e'.1 = e.1 := by simpa using List.find?_some he'
  unfold Graph.get
  rw [he']
  dsimp only
  rw [h e' (List.mem_of_find?_eq_some he'), hname]

theorem dependenciesOf_eq {name : String} {container : Container}
    (h : containers.get? name = some container) :
    dependenciesOf containers root taskDependencies name =
      sortedDependencies container (if name = root then taskDependencies else none) := by
  unfold dependenciesOf
  rw [h]

variable (containers root taskDependencies)

/-- What one part of the walk does, off the `path`: it finishes `todo`, and every container it adds
is declared, off the path, and entered with its dependencies. -/
structure Grows (path todo : List String) (graph graph' : Graph) : Prop where
  walk : Walk (dependenciesOf containers root taskDependencies) graph.keys todo graph'.keys
  lists : Lists containers root taskDependencies graph →
    Lists containers root taskDependencies graph'
  off : ∀ x ∈ graph'.keys, x ∈ graph.keys ∨ x ∉ path
  declared : ∀ x ∈ graph'.keys, x ∈ graph.keys ∨ ∃ container, containers.get? x = some container

variable {containers root taskDependencies}

theorem Grows.append {path l r : List String} {g₁ g₂ g₃ : Graph}
    (h : Grows containers root taskDependencies path l g₁ g₂)
    (h' : Grows containers root taskDependencies path r g₂ g₃) :
    Grows containers root taskDependencies path (l ++ r) g₁ g₃ := by
  refine ⟨h.walk.append h'.walk, fun hl => h'.lists (h.lists hl), ?_, ?_⟩
  · intro x hx
    rcases h'.off x hx with hx | hx
    · exact h.off x hx
    · exact .inr hx
  · intro x hx
    rcases h'.declared x hx with hx | hx
    · exact h.declared x hx
    · exact .inr hx

theorem visitDependencies_grows {visit : String → Graph → Except GraphError Graph}
    {path dependencies : List String} {graph graph' : Graph}
    (hvisit : ∀ d ∈ dependencies, ∀ g g', visit d g = .ok g' →
      Grows containers root taskDependencies path [d] g g')
    (h : visitDependencies visit dependencies graph = .ok graph') :
    Grows containers root taskDependencies path dependencies graph graph' := by
  induction dependencies generalizing graph with
  | nil =>
      obtain rfl := Except.ok.inj h
      exact ⟨.nil _, id, fun x hx => .inl hx, fun x hx => .inl hx⟩
  | cons d rest ih =>
      obtain ⟨mid, hmid, h⟩ := Except.bind_eq_ok.mp h
      have hd := hvisit d (by simp) graph mid hmid
      exact hd.append (l := [d]) (ih (fun e he => hvisit e (by simp [he])) h)

/-- The walk.  `root` is entered with the task's dependencies; later it is on the path, so no
other visit enters it. -/
theorem visitContainer_grows {fuel : ℕ} {name : String} {extra : Option (List String)}
    {path : List String} {graph graph' : Graph}
    (hextra : name ∉ path → extra = if name = root then taskDependencies else none)
    (hroot : name = root ∨ root ∈ path)
    (h : visitContainer containers fuel name extra path graph = .ok graph') :
    Grows containers root taskDependencies path [name] graph graph' := by
  induction fuel generalizing name extra path graph graph' with
  | zero => cases h
  | succ fuel ih =>
      rw [visitContainer] at h
      split_ifs at h with hdone hpath
      · obtain rfl := Except.ok.inj h
        exact ⟨.skip hdone (.nil _), id, fun x hx => .inl hx, fun x hx => .inl hx⟩
      · cases hc : containers.get? name with
        | none =>
            rw [hc] at h
            cases h
        | some container =>
            rw [hc] at h
            obtain ⟨mid, hmid, h⟩ := Except.bind_eq_ok.mp h
            obtain rfl := Except.ok.inj h
            have hdeps : sortedDependencies container extra =
                dependenciesOf containers root taskDependencies name := by
              rw [dependenciesOf_eq hc, hextra hpath]
            have hgrows : Grows containers root taskDependencies (path ++ [name])
                (sortedDependencies container extra) graph mid := by
              refine visitDependencies_grows (fun d _ g g' hv => ih ?_ ?_ hv) hmid
              · intro hd
                have hne : d ≠ root := by
                  rintro rfl
                  rcases hroot with rfl | hroot
                  · simp at hd
                  · simp [hroot] at hd
                rw [if_neg hne]
              · right
                rcases hroot with rfl | hroot
                · simp
                · simp [hroot]
            have hmidkeys : ∀ x ∈ mid.keys, x ∈ graph.keys ∨ x ∉ path ++ [name] := hgrows.off
            have hfresh : name ∉ mid.keys := by
              intro hmem
              rcases hmidkeys name hmem with hx | hx
              · exact hdone hx
              · simp at hx
            have hkeys : Graph.keys (mid ++ [(name, sortedDependencies container extra)]) =
                mid.keys ++ [name] := by
              simp [Graph.keys]
            rw [hdeps] at hgrows
            refine ⟨?_, ?_, ?_, ?_⟩
            · rw [hkeys]
              exact .visit hdone hfresh hgrows.walk (.nil _)
            · intro hl e he
              rcases List.mem_append.mp he with he | he
              · exact hgrows.lists hl e he
              · rw [List.mem_singleton.mp he]
                exact hdeps
            · intro x hx
              rw [hkeys, List.mem_append, List.mem_singleton] at hx
              rcases hx with hx | rfl
              · rcases hmidkeys x hx with hx | hx
                · exact .inl hx
                · right
                  simp only [List.mem_append, not_or] at hx
                  exact hx.1
              · exact .inr hpath
            · intro x hx
              rw [hkeys, List.mem_append, List.mem_singleton] at hx
              rcases hx with hx | rfl
              · exact hgrows.declared x hx
              · exact .inr ⟨container, hc⟩

variable (containers root taskDependencies)

/-- What holds of every graph that `build_dependency_graph` returns. -/
structure GraphOf (graph : Graph) : Prop where
  nodup : graph.keys.Nodup
  lists : ∀ name ∈ graph.keys,
    graph.get name = dependenciesOf containers root taskDependencies name
  ordered : Ordered graph.get graph.keys
  declared : ∀ name ∈ graph.keys, ∃ container, containers.get? name = some container
  last : graph.keys.getLast? = some root

variable {containers root taskDependencies}

theorem buildDependencyGraph_spec {graph : Graph}
    (h : buildDependencyGraph containers root taskDependencies = .ok graph) :
    GraphOf containers root taskDependencies graph := by
  have hgrows : Grows containers root taskDependencies [] [root] [] graph :=
    visitContainer_grows (by simp) (.inl rfl) h
  have hlists : Lists containers root taskDependencies graph := hgrows.lists (by simp [Lists])
  have hget : ∀ name ∈ graph.keys,
      graph.get name = dependenciesOf containers root taskDependencies name :=
    fun name hn => hlists.get hn
  refine ⟨hgrows.walk.nodup (by simp [Graph.keys]), hget, ?_, ?_, hgrows.walk.getLast?_eq⟩
  · intro l a r hsplit b hb
    have hord := hgrows.walk.ordered (by simpa [Graph.keys] using Ordered.nil)
    rw [hget a (by rw [hsplit]; simp)] at hb
    exact hord l a r hsplit b hb
  · intro name hn
    rcases hgrows.declared name hn with hn | hn
    · cases hn
    · exact hn

/-! ### Positions in a graph -/

namespace GraphOf

variable {graph : Graph}

theorem root_mem (h : GraphOf containers root taskDependencies graph) : root ∈ graph.keys :=
  List.mem_of_getLast? h.last

/-- A container's dependencies come before it. -/
theorem idxOf_lt (h : GraphOf containers root taskDependencies graph) {name dependency : String}
    (hn : name ∈ graph.keys) (hd : dependency ∈ graph.get name) :
    graph.keys.idxOf dependency < graph.keys.idxOf name := by
  obtain ⟨l, r, hsplit⟩ := List.append_of_mem hn
  have hmem : dependency ∈ l := h.ordered l name r hsplit dependency hd
  have hfresh : name ∉ l := by
    have hnodup := h.nodup
    rw [hsplit, List.nodup_append] at hnodup
    intro hl
    exact hnodup.2.2 name hl name List.mem_cons_self rfl
  rw [hsplit, List.idxOf_append_of_mem hmem, List.idxOf_append_of_notMem hfresh,
    List.idxOf_cons_self]
  have hlt := List.idxOf_lt_length_of_mem hmem
  omega

theorem dependency_mem (h : GraphOf containers root taskDependencies graph)
    {name dependency : String} (hn : name ∈ graph.keys) (hd : dependency ∈ graph.get name) :
    dependency ∈ graph.keys := by
  obtain ⟨l, r, hsplit⟩ := List.append_of_mem hn
  rw [hsplit]
  exact List.mem_append_left _ (h.ordered l name r hsplit dependency hd)

theorem reaches_lt (h : GraphOf containers root taskDependencies graph) {name dependency : String}
    (hr : Relation.TransGen (Edge graph.get) name dependency) :
    dependency ∈ graph.keys ∧ graph.keys.idxOf dependency < graph.keys.idxOf name := by
  induction hr with
  | single hd =>
      have hn := Graph.mem_keys_of_get hd
      exact ⟨h.dependency_mem hn hd, h.idxOf_lt hn hd⟩
  | tail _ hd ih => exact ⟨h.dependency_mem ih.1 hd, (h.idxOf_lt ih.1 hd).trans ih.2⟩

/-- Nothing depends on itself. -/
theorem acyclic (h : GraphOf containers root taskDependencies graph) (name : String) :
    ¬ Relation.TransGen (Edge graph.get) name name := fun hr =>
  absurd (h.reaches_lt hr).2 (lt_irrefl _)

/-- A `container:` target is one of the container's dependencies. -/
theorem target_mem (h : GraphOf containers root taskDependencies graph) {name target : String}
    {container : Container} (hn : name ∈ graph.keys) (hc : containers.get? name = some container)
    (ht : container.networkMode = some (.container target)) : target ∈ graph.get name := by
  rw [h.lists name hn, dependenciesOf_eq hc, mem_sortedDependencies]
  exact .inl (containers.targets (name, container) (Containers.mem_entries_of_get? hc) target ht)

end GraphOf

/-- Sorted lists lose their repetitions. -/
theorem dedupAdjacent_nodup {l : List String} (h : l.Pairwise (· ≤ ·)) :
    (dedupAdjacent l).Nodup := by
  induction l using dedupAdjacent.induct with
  | case1 => exact List.nodup_nil
  | case2 a => exact List.nodup_singleton a
  | case3 a rest ih =>
      rw [dedupAdjacent, if_pos rfl]
      exact ih h.of_cons
  | case4 a b rest hab ih =>
      rw [dedupAdjacent, if_neg hab, List.nodup_cons]
      refine ⟨fun hmem => ?_, ih h.of_cons⟩
      rw [mem_dedupAdjacent] at hmem
      have hle : a ≤ b := List.rel_of_pairwise_cons h List.mem_cons_self
      rcases List.mem_cons.mp hmem with rfl | hmem
      · exact hab rfl
      · exact hab (le_antisymm hle (List.rel_of_pairwise_cons h.of_cons hmem))

theorem sortedDependencies_nodup (container : Container) (extra : Option (List String)) :
    (sortedDependencies container extra).Nodup :=
  dedupAdjacent_nodup (List.pairwise_insertionSort _ _)

/-- A container has at most as many dependencies as the graph has containers. -/
theorem GraphOf.length_le {graph : Graph} (h : GraphOf containers root taskDependencies graph)
    (name : String) : (graph.get name).length ≤ graph.keys.length := by
  by_cases hn : name ∈ graph.keys
  · obtain ⟨container, hc⟩ := h.declared name hn
    have hnodup : (graph.get name).Nodup := by
      rw [h.lists name hn, dependenciesOf_eq hc]
      exact sortedDependencies_nodup _ _
    exact (List.subperm_of_subset hnodup fun d hd => h.dependency_mem hn hd).length_le
  · have hnil : graph.get name = [] := by
      rw [List.eq_nil_iff_forall_not_mem]
      exact fun d hd => hn (Graph.mem_keys_of_get hd)
    rw [hnil]
    exact Nat.zero_le _

/-! ### The bound of the walk is never reached -/

theorem visitDependencies_ne {visit : String → Graph → Except GraphError Graph} {error : GraphError}
    {dependencies : List String} (hvisit : ∀ d ∈ dependencies, ∀ g, visit d g ≠ .error error)
    (graph : Graph) : visitDependencies visit dependencies graph ≠ .error error := by
  induction dependencies generalizing graph with
  | nil => exact fun h => by cases h
  | cons d rest ih =>
      unfold visitDependencies
      cases hv : visit d graph with
      | error e =>
          intro h
          exact hvisit d List.mem_cons_self graph (hv.trans h)
      | ok g => exact ih (fun e he => hvisit e (List.mem_cons_of_mem _ he)) g

theorem visitContainer_ne (fuel : ℕ) (name : String) (extra : Option (List String))
    (path : List String) (graph : Graph) (hnodup : path.Nodup)
    (hnames : ∀ p ∈ path, p ∈ containers.names)
    (hfuel : containers.entries.length < fuel + path.length) :
    visitContainer containers fuel name extra path graph ≠ .error .outOfFuel := by
  induction fuel generalizing name extra path graph with
  | zero =>
      have hlen := (List.subperm_of_subset hnodup hnames).length_le
      simp only [Containers.names, List.length_map] at hlen
      omega
  | succ fuel ih =>
      rw [visitContainer]
      split_ifs with hdone hpath
      · exact fun h => by cases h
      · exact fun h => by cases h
      · cases hc : containers.get? name with
        | none => exact fun h => by cases h
        | some container =>
            dsimp only
            have hnodup' : (path ++ [name]).Nodup := by
              rw [List.nodup_append]
              refine ⟨hnodup, List.nodup_singleton _, ?_⟩
              rintro a ha b hb rfl
              rw [List.mem_singleton.mp hb] at ha
              exact hpath ha
            have hnames' : ∀ p ∈ path ++ [name], p ∈ containers.names := by
              intro p hp
              rcases List.mem_append.mp hp with hp | hp
              · exact hnames p hp
              · rw [List.mem_singleton.mp hp]
                exact Containers.mem_names_of_get? hc
            have hdeps : visitDependencies
                (fun d => visitContainer containers fuel d none (path ++ [name]))
                (sortedDependencies container extra) graph ≠ .error .outOfFuel := by
              apply visitDependencies_ne
              intro d _ g
              apply ih d none (path ++ [name]) g hnodup' hnames'
              rw [List.length_append, List.length_singleton]
              omega
            cases hv : visitDependencies
              (fun d => visitContainer containers fuel d none (path ++ [name]))
              (sortedDependencies container extra) graph with
            | error e =>
                intro h
                exact hdeps (hv.trans h)
            | ok g => exact fun h => by cases h

theorem buildDependencyGraph_ne_outOfFuel :
    buildDependencyGraph containers root taskDependencies ≠ .error .outOfFuel :=
  visitContainer_ne _ root taskDependencies [] [] List.nodup_nil (by simp) (by simp)

/-! ### Closed container maps -/

/-- Where every name is declared and so is all it depends on, the walk meets no other name. -/
theorem visitContainer_declared {P : String → Prop}
    (hclosed : ∀ n, P n → ∃ container, containers.get? n = some container ∧
      ∀ d ∈ container.dependencies.getD [], P d) (fuel : ℕ) {name : String} {extra :
        Option (List String)}
    (hname : P name) (hextra : ∀ d ∈ extra.getD [], P d) (path : List String) (graph : Graph)
    (missing : String) :
    visitContainer containers fuel name extra path graph ≠ .error (.undeclared missing) := by
  induction fuel generalizing name extra path graph with
  | zero => exact fun h => by cases h
  | succ fuel ih =>
      rw [visitContainer]
      split_ifs with hdone hpath
      · exact fun h => by cases h
      · exact fun h => by cases h
      · obtain ⟨container, hc, hdependencies⟩ := hclosed name hname
        rw [hc]
        dsimp only
        have hdeps : visitDependencies
            (fun d => visitContainer containers fuel d none (path ++ [name]))
            (sortedDependencies container extra) graph ≠ .error (.undeclared missing) := by
          apply visitDependencies_ne
          intro d hd g
          apply ih
          · rcases (mem_sortedDependencies container extra d).mp hd with hd | hd
            · exact hdependencies d hd
            · exact hextra d hd
          · simp
        cases hv : visitDependencies
          (fun d => visitContainer containers fuel d none (path ++ [name]))
            (sortedDependencies container extra) graph with
        | error e =>
            intro h
            exact hdeps (hv.trans h)
        | ok g => exact fun h => by cases h

end walk

end Ratect
