import Ratect.Startup
import Ratect.FanoutRules

/-! # The scripts of the start-up keep their rules

`cellRules` are the rules of each cell: permits around the counted operations only, cells awaited
in the order of the dependency graph, a start after the dependencies' readiness and a create after
the image and the `container:` target, each create and start from one cell and once, and a refusal
that fails the cell.  `cellScript_conforms` checks every script against them. -/

namespace Ratect

open Fanout

section rules

variable (settings : Settings)

/-- The order in which cells await each other: pulls and builds, images, creations along the graph,
readiness along the graph, the execution. -/
def cellRank : Ranking Cell where
  known
    | .execution => True
    | .pull _ _ => True
    | .built name => name ∈ settings.graph.keys
    | .image name => name ∈ settings.graph.keys
    | .created name => name ∈ settings.graph.keys
    | .ready name => name ∈ settings.graph.keys
  rank
    | .execution => 3 + 2 * settings.graph.keys.length
    | .pull _ _ => 0
    | .built _ => 0
    | .image _ => 1
    | .created name => 2 + settings.graph.keys.idxOf name
    | .ready name => 2 + settings.graph.keys.length + settings.graph.keys.idxOf name

/-- What a create needs: the image, and the container whose network it shares. -/
def createNeeds (name : String) : List Cell :=
  match settings.containers.get? name with
  | none => []
  | some container =>
      match networkTarget container with
      | some target => [.image name, .created target]
      | none => [.image name]

/-- What has to have succeeded before a call. -/
def requestNeeds : Request → List Cell
  | .createContainer name => createNeeds settings name
  | .startBackgroundContainer name => (settings.graph.get name).map .ready ++ [.created name]
  | _ => []

/-- What has to have succeeded before a cell does. -/
def cellNeeds : Cell → List Cell
  | .execution => (containerNames settings).map .created ++
      (settings.graph.get settings.root).map .ready
  | .ready name => (settings.graph.get name).map .ready ++ [.created name]
  | .created name => createNeeds settings name
  | _ => []

/-- The cell that creates, starts or sets up a container. -/
def Request.madeBy : Request → Cell → Prop
  | createContainer name, k => k = .created name
  | startBackgroundContainer name, k => k = .ready name
  | execInContainer name _, k => k = .ready name
  | _, _ => True

/-- The answers that are a failure of the step: any but a success, for a lookup or an exit also not
its negative answer.  A tag, the daemon's class and a failed container's output fail nothing. -/
def Request.fails : Request → Answer → Prop
  | localImageId _, a => a = .refused ∨ a = .refusedCreated
  | waitForExit _, a => a = .refused ∨ a = .refusedCreated
  | tagImage _ _, _ => False
  | daemonClass _, _ => False
  | containerOutput _, _ => False
  | _, a => a ≠ .success

/-- The cells that an initialiser may await.  A creation awaits no readiness. -/
def mayAwait : Cell → Cell → Prop
  | .execution, c => (∃ name ∈ settings.graph.keys, c = .created name) ∨
      ∃ dependency ∈ settings.graph.get settings.root, c = .ready dependency
  | .image name, c => (∃ image policy, c = .pull image policy) ∨ c = .built name
  | .created name, c => c = .image name ∨ ∃ container target,
      settings.containers.get? name = some container ∧
      networkTarget container = some target ∧ c = .created target
  | .ready name, c => (∃ dependency ∈ settings.graph.get name, c = .ready dependency) ∨
      c = .created name
  | _, _ => False

/-- The rules of a cell. -/
def cellRules (k : Cell) : Rules Cell Request Answer where
  capped r := r.capped = true
  need := requestNeeds settings
  needEnd := cellNeeds settings k
  awaits groups :=
    (∀ group ∈ groups, group.length ≤ 1 ∨ group.length ≤ settings.graph.keys.length) ∧
    ∀ c ∈ groups.flatten, mayAwait settings k c
  calls r := r.madeBy k
  once r := (∃ name, r = .createContainer name) ∨ ∃ name, r = .startBackgroundContainer name
  bad := Request.fails

end rules

/-! ### The pieces of the scripts -/

section pieces

variable {settings : Settings} {k : Cell} {held : Bool} {joined : List Cell} {made : List Request}

/-- A call that fails on anything but a success. -/
theorem conforms_orFail {request : Request} {next : Startup}
    (hcapped : request.capped = true → held = true) (hmade : request.madeBy k)
    (honce : (cellRules settings k).once request → request ∉ made)
    (hneed : ∀ c ∈ requestNeeds settings request, c ∈ joined)
    (hfails : ∀ a, request.fails a → a ≠ .success)
    (hnext : Conforms (cellRules settings k) held joined (request :: made) next) :
    Conforms (cellRules settings k) held joined made (.call request (orFail next)) := by
  refine ⟨hcapped, hmade, honce, hneed, fun a => ?_⟩
  cases a with
  | success => exact ⟨fun h => absurd rfl (hfails _ h), hnext⟩
  | negative => exact ⟨fun _ => rfl, trivial⟩
  | refused => exact ⟨fun _ => rfl, trivial⟩
  | refusedCreated => exact ⟨fun _ => rfl, trivial⟩

/-- A call that no rule restricts. -/
def Request.plain (r : Request) : Prop :=
  r.capped = false ∧ (∀ k, r.madeBy k) ∧ (∀ settings, requestNeeds settings r = []) ∧
    ∀ settings k, ¬ (cellRules settings k).once r

theorem conforms_plain {request : Request} {next : Answer → Startup} (hplain : request.plain)
    (hnext : ∀ a, (request.fails a → (next a).rest = .fail) ∧
      Conforms (cellRules settings k) held joined (request :: made) (next a)) :
    Conforms (cellRules settings k) held joined made (.call request next) := by
  obtain ⟨h1, h2, h3, h4⟩ := hplain
  refine ⟨fun h => ?_, h2 k, fun h => absurd h (h4 settings k), ?_, hnext⟩
  · have hcapped : request.capped = true := h
    rw [h1] at hcapped
    cases hcapped
  · intro c hc
    have hneed : c ∈ requestNeeds settings request := hc
    rw [h3 settings] at hneed
    cases hneed

theorem conforms_plain_orFail {request : Request} {next : Startup} (hplain : request.plain)
    (hfails : ∀ a, request.fails a → a ≠ .success)
    (hnext : Conforms (cellRules settings k) held joined (request :: made) next) :
    Conforms (cellRules settings k) held joined made (.call request (orFail next)) := by
  obtain ⟨h1, h2, h3, h4⟩ := hplain
  refine conforms_orFail (fun h => ?_) (h2 k) (fun h => absurd h (h4 settings k)) ?_ hfails hnext
  · rw [h1] at h
    cases h
  · rw [h3 settings]
    simp

theorem tagAll_conforms (hend : cellNeeds settings k = []) (name : String) (tags : List String)
    (refused : Bool) :
    Conforms (cellRules settings k) held joined made (tagAll name tags refused) := by
  induction tags generalizing refused made with
  | nil =>
      unfold tagAll
      split_ifs
      · trivial
      · intro c hc
        have hneed : c ∈ cellNeeds settings k := hc
        rw [hend] at hneed
        cases hneed
  | cons tag tags ih =>
      have hplain : (Request.tagImage name tag).plain :=
        ⟨rfl, fun _ => trivial, fun _ => rfl, fun _ _ => by simp [cellRules]⟩
      refine conforms_plain hplain fun a => ⟨fun h => h.elim, ?_⟩
      cases a with
      | success => exact ih refused
      | negative => exact ih true
      | refused => exact ih true
      | refusedCreated => exact ih true

/-- The end of a cell, once everything it needs has been awaited. -/
theorem conforms_done (hend : ∀ c ∈ cellNeeds settings k, c ∈ joined) :
    Conforms (cellRules settings k) held joined made .done := hend

theorem runSetupCommands_conforms {name : String}
    (hend : ∀ c ∈ cellNeeds settings (.ready name), c ∈ joined) (dependencies : List String)
    (index : ℕ) (commands : List SetupCommand) :
    Conforms (cellRules settings (.ready name)) false joined made
      (runSetupCommands name dependencies index commands) := by
  induction commands generalizing index made with
  | nil => exact hend
  | cons command commands ih =>
      have hexec : Conforms (cellRules settings (.ready name)) false joined made (.acquire
          (.call (.execInContainer name index)
            (orFail (.release (runSetupCommands name dependencies (index + 1) commands))))) := by
        refine ⟨rfl, conforms_orFail (fun _ => rfl) rfl (by simp [cellRules])
          (by simp [requestNeeds])
          (fun a h => h) ⟨rfl, ih (index + 1)⟩⟩
      unfold runSetupCommands
      dsimp only
      split
      · split_ifs
        · exact hexec
        · trivial
      · exact hexec

theorem readinessGate_conforms {name : String} (container : Container) (dependencies : List String)
    (hend : ∀ c ∈ cellNeeds settings (.ready name), c ∈ joined) :
    Conforms (cellRules settings (.ready name)) false joined made
      (readinessGate name container dependencies) := by
  have hexit : (Request.waitForExit name).plain :=
    ⟨rfl, fun _ => trivial, fun _ => rfl, fun _ _ => by simp [cellRules]⟩
  have houtput : (Request.containerOutput name).plain :=
    ⟨rfl, fun _ => trivial, fun _ => rfl, fun _ _ => by simp [cellRules]⟩
  have hhealthy : (Request.waitForHealthy name).plain :=
    ⟨rfl, fun _ => trivial, fun _ => rfl, fun _ _ => by simp [cellRules]⟩
  unfold readinessGate
  by_cases hrun : container.runToCompletion.getD false = true
  · rw [if_pos hrun]
    refine conforms_plain hexit fun a => ?_
    cases a with
    | success => exact ⟨fun h => by simp [Request.fails] at h, conforms_done hend⟩
    | negative =>
        refine ⟨fun h => by simp [Request.fails] at h, ?_⟩
        dsimp only
        split_ifs
        · exact conforms_plain houtput fun _ => ⟨fun h => h.elim, trivial⟩
        · trivial
    | refused => exact ⟨fun _ => rfl, trivial⟩
    | refusedCreated => exact ⟨fun _ => rfl, trivial⟩
  · rw [if_neg hrun]
    dsimp only
    split_ifs
    · exact runSetupCommands_conforms hend _ _ _
    · exact conforms_plain_orFail hhealthy (fun a h => h) (runSetupCommands_conforms hend _ _ _)

end pieces

/-! ### Every cell -/

section cells

variable {settings : Settings} {taskDependencies : Option (List String)}

theorem pull_conforms (image : String) (policy : ImagePullPolicy) :
    Conforms (cellRules settings (.pull image policy)) false [] []
      (cellScript settings (.pull image policy)) := by
  have hpull : ∀ made, Conforms (cellRules settings (.pull image policy)) false [] made
      (pullUnderPermit image) := by
    intro made
    exact ⟨rfl, conforms_orFail (fun _ => rfl) trivial (by simp [cellRules])
      (by simp [requestNeeds])
      (fun a h => h) (conforms_done (by simp [cellNeeds]))⟩
  have hlookup : (Request.localImageId image).plain :=
    ⟨rfl, fun _ => trivial, fun _ => rfl, fun _ _ => by simp [cellRules]⟩
  cases policy with
  | always => exact hpull []
  | ifNotPresent =>
      refine conforms_plain hlookup fun a => ?_
      cases a with
      | success =>
          exact ⟨fun h => by simp [Request.fails] at h, conforms_done (by simp [cellNeeds])⟩
      | negative => exact ⟨fun h => by simp [Request.fails] at h, hpull _⟩
      | refused => exact ⟨fun _ => rfl, trivial⟩
      | refusedCreated => exact ⟨fun _ => rfl, trivial⟩

theorem built_conforms (name : String) :
    Conforms (cellRules settings (.built name)) false [] []
      (cellScript settings (.built name)) := by
  have hcheck : (Request.checkBuild name).plain :=
    ⟨rfl, fun _ => trivial, fun _ => rfl, fun _ _ => by simp [cellRules]⟩
  refine conforms_plain_orFail hcheck (fun a h => h) ⟨rfl, ?_⟩
  refine conforms_orFail (fun _ => rfl) trivial (by simp [cellRules]) (by simp [requestNeeds])
    (fun a h => h) ?_
  exact tagAll_conforms rfl name _ _

theorem image_conforms (name : String) :
    Conforms (cellRules settings (.image name)) false [] []
      (cellScript settings (.image name)) := by
  unfold cellScript
  dsimp only
  unfold ensureImageResolved
  split
  · trivial
  · next container _ =>
      split
      · trivial
      · next source hsource =>
          refine ⟨rfl, ⟨by simp, fun c hc => ?_⟩, conforms_done (by simp [cellNeeds])⟩
          obtain rfl : c = source := by simpa using hc
          unfold imageSource at hsource
          split at hsource
          · split_ifs at hsource
            exact .inl ⟨_, _, (Option.some.inj hsource).symm⟩
          · split at hsource
            · split_ifs at hsource
              exact .inl ⟨_, _, (Option.some.inj hsource).symm⟩
            · split_ifs at hsource
              exact .inr (Option.some.inj hsource).symm

theorem createUnderPermit_conforms {name : String} (container : Container) {joined : List Cell}
    {made : List Request} (hneeds : ∀ c ∈ createNeeds settings name, c ∈ joined)
    (hmade : .createContainer name ∉ made) :
    Conforms (cellRules settings (.created name)) false joined made
      (createUnderPermit name container) := by
  have happly : (Request.applyIdentity name).plain :=
    ⟨rfl, fun _ => trivial, fun _ => rfl, fun _ _ => by simp [cellRules]⟩
  unfold createUnderPermit
  refine ⟨rfl, conforms_orFail (fun _ => rfl) rfl (fun _ => hmade) hneeds (fun a h => h) ?_⟩
  split_ifs
  · exact conforms_plain_orFail happly (fun a h => h) ⟨rfl, conforms_done hneeds⟩
  · exact ⟨rfl, conforms_done hneeds⟩

theorem createWithImage_conforms {name : String} {container : Container} {made : List Request}
    (hc : settings.containers.get? name = some container) (hmade : .createContainer name ∉ made) :
    Conforms (cellRules settings (.created name)) false [.image name] made
      (createWithImage name container) := by
  have hprepare : (Request.prepare name).plain :=
    ⟨rfl, fun _ => trivial, fun _ => rfl, fun _ _ => by simp [cellRules]⟩
  have hmade' : Request.createContainer name ∉ Request.prepare name :: made := by simp [hmade]
  unfold createWithImage
  dsimp only
  cases htarget : networkTarget container with
  | none =>
      refine conforms_plain_orFail hprepare (fun a h => h) (createUnderPermit_conforms _ ?_ hmade')
      simp [createNeeds, hc, htarget]
  | some target =>
      refine ⟨rfl, ⟨by simp, fun c hmem => ?_⟩, conforms_plain_orFail hprepare (fun a h => h)
        (createUnderPermit_conforms _ ?_ hmade')⟩
      · obtain rfl : c = .created target := by simpa using hmem
        exact .inr ⟨container, target, hc, htarget, rfl⟩
      · simp [createNeeds, hc, htarget]

theorem created_conforms (name : String) :
    Conforms (cellRules settings (.created name)) false [] []
      (cellScript settings (.created name)) := by
  have hclass : (Request.daemonClass name).plain :=
    ⟨rfl, fun _ => trivial, fun _ => rfl, fun _ _ => by simp [cellRules]⟩
  have huser : (Request.hostUser name).plain :=
    ⟨rfl, fun _ => trivial, fun _ => rfl, fun _ _ => by simp [cellRules]⟩
  unfold cellScript
  dsimp only
  unfold ensureContainerCreated
  cases hc : settings.containers.get? name with
  | none => trivial
  | some container =>
      have himage : ∀ made, .createContainer name ∉ made →
          Conforms (cellRules settings (.created name)) false [] made
            (.join [[.image name]] (createWithImage name container)) := by
        intro made hmade
        refine ⟨rfl, ⟨by simp, fun c hmem => ?_⟩, createWithImage_conforms hc hmade⟩
        exact .inl (by simpa using hmem)
      have hwith : ∀ made, .createContainer name ∉ made →
          Conforms (cellRules settings (.created name)) false [] made
            (if container.identity || container.user then
              .call (.daemonClass name) fun _ =>
                .join [[.image name]] (createWithImage name container)
            else .join [[.image name]] (createWithImage name container)) := by
        intro made hmade
        split_ifs
        · exact conforms_plain hclass fun _ => ⟨fun h => h.elim, himage _ (by simp [hmade])⟩
        · exact himage made hmade
      dsimp only
      by_cases hidentity : container.identity = true
      · rw [if_pos hidentity]
        exact conforms_plain_orFail huser (fun a h => h) (hwith _ (by simp))
      · rw [if_neg hidentity]
        exact hwith [] (by simp)

theorem mem_containerNames {name : String} :
    name ∈ containerNames settings ↔ name ∈ settings.graph.keys := by
  unfold containerNames
  rw [List.mem_insertionSort]

variable (hgraph : GraphOf settings.containers settings.root taskDependencies settings.graph)

include hgraph

theorem ready_conforms (name : String) :
    Conforms (cellRules settings (.ready name)) false [] []
      (cellScript settings (.ready name)) := by
  refine ⟨rfl, ⟨?_, fun c hmem => ?_⟩, ?_⟩
  · intro group hg
    obtain rfl : group = (settings.graph.get name).map .ready := by simpa using hg
    right
    rw [List.length_map]
    exact hgraph.length_le name
  · obtain ⟨d, hd, rfl⟩ : ∃ d ∈ settings.graph.get name, Cell.ready d = c := by simpa using hmem
    exact .inl ⟨d, hd, rfl⟩
  · cases settings.containers.get? name with
    | none => trivial
    | some container =>
        refine ⟨rfl, ⟨by simp, fun c hmem => .inr (by simpa using hmem)⟩, rfl, ?_⟩
        have hneeds : ∀ c ∈ (settings.graph.get name).map Cell.ready ++ [.created name],
            c ∈ [] ++ [(settings.graph.get name).map Cell.ready].flatten ++
              [[Cell.created name]].flatten := by
          intro c hmem
          simpa using hmem
        exact conforms_orFail (fun _ => rfl) rfl (by simp [cellRules]) hneeds (fun a h => h)
          ⟨rfl, readinessGate_conforms container _ hneeds⟩

theorem execution_conforms :
    Conforms (cellRules settings .execution) false [] [] (cellScript settings .execution) := by
  have hexists : ∀ name, (Request.networkExists name).plain := fun name =>
    ⟨rfl, fun _ => trivial, fun _ => rfl, fun _ _ => by simp [cellRules]⟩
  have hcreate : Request.createNetwork.plain :=
    ⟨rfl, fun _ => trivial, fun _ => rfl, fun _ _ => by simp [cellRules]⟩
  have hfan : ∀ made, Conforms (cellRules settings .execution) false [] made
      (.join [(containerNames settings).map .created, (settings.graph.get settings.root).map .ready]
        (.join [[.created settings.root]] .done)) := by
    intro made
    refine ⟨rfl, ⟨?_, fun c hmem => ?_⟩, rfl, ⟨by simp, fun c hmem => ?_⟩, ?_⟩
    · intro group hg
      right
      simp only [List.mem_cons, List.not_mem_nil, or_false] at hg
      rcases hg with rfl | rfl
      · rw [List.length_map, containerNames, List.length_insertionSort]
      · rw [List.length_map]
        exact hgraph.length_le settings.root
    · simp only [List.flatten_cons, List.flatten_nil, List.append_nil, List.mem_append,
        List.mem_map] at hmem
      rcases hmem with ⟨name, hname, rfl⟩ | ⟨name, hname, rfl⟩
      · exact .inl ⟨name, mem_containerNames.mp hname, rfl⟩
      · exact .inr ⟨name, hname, rfl⟩
    · exact .inl ⟨settings.root, hgraph.root_mem, by simpa using hmem⟩
    · apply conforms_done
      intro c hmem
      have hmem' : c ∈ (containerNames settings).map Cell.created ++
          (settings.graph.get settings.root).map .ready := hmem
      simp only [List.flatten_cons, List.flatten_nil, List.append_nil, List.nil_append]
      exact List.mem_append_left _ hmem'
  unfold cellScript
  dsimp only
  unfold startExecution
  dsimp only
  cases settings.existingNetwork with
  | some name => exact conforms_plain_orFail (hexists name) (fun a h => h) (hfan _)
  | none => exact conforms_plain_orFail hcreate (fun a h => h) (hfan _)

/-- Every script keeps the rules of its cell. -/
theorem cellScript_conforms (k : Cell) :
    Conforms (cellRules settings k) false [] [] (cellScript settings k) := by
  cases k with
  | execution => exact execution_conforms hgraph
  | pull image policy => exact pull_conforms image policy
  | built name => exact built_conforms name
  | image name => exact image_conforms name
  | created name => exact created_conforms name
  | ready name => exact ready_conforms hgraph name

/-! ### The graph orders the cells -/

theorem target_rank {name target : String} {container : Container}
    (hname : name ∈ settings.graph.keys) (hc : settings.containers.get? name = some container)
    (htarget : networkTarget container = some target) :
    target ∈ settings.graph.keys ∧
      settings.graph.keys.idxOf target < settings.graph.keys.idxOf name := by
  have hmode : container.networkMode = some (.container target) := by
    unfold networkTarget at htarget
    split at htarget
    · next heq =>
        obtain rfl := Option.some.inj htarget
        exact heq
    · cases htarget
  have hd := hgraph.target_mem hname hc hmode
  exact ⟨hgraph.dependency_mem hname hd, hgraph.idxOf_lt hname hd⟩

/-- What a cell of the graph awaits is a cell of the graph, of lower rank. -/
theorem mayAwait_rank {k c : Cell} (hk : (cellRank settings).known k) (h : mayAwait settings k c) :
    (cellRank settings).known c ∧ cellRank settings c < cellRank settings k := by
  cases k with
  | execution =>
      rcases h with ⟨name, hname, rfl⟩ | ⟨name, hname, rfl⟩
      · have hlt := List.idxOf_lt_length_of_mem hname
        refine ⟨hname, ?_⟩
        simp only [cellRank]
        omega
      · have hkey := hgraph.dependency_mem hgraph.root_mem hname
        have hlt := List.idxOf_lt_length_of_mem hkey
        refine ⟨hkey, ?_⟩
        simp only [cellRank]
        omega
  | pull image policy => cases h
  | built name => cases h
  | image name =>
      rcases h with ⟨image, policy, rfl⟩ | rfl
      · exact ⟨trivial, Nat.zero_lt_one⟩
      · exact ⟨hk, Nat.zero_lt_one⟩
  | created name =>
      have hname : name ∈ settings.graph.keys := hk
      rcases h with rfl | ⟨container, target, hc, htarget, rfl⟩
      · refine ⟨hname, ?_⟩
        simp only [cellRank]
        omega
      · obtain ⟨hkey, hlt⟩ := target_rank hgraph hname hc htarget
        refine ⟨hkey, ?_⟩
        simp only [cellRank]
        omega
  | ready name =>
      have hname : name ∈ settings.graph.keys := hk
      rcases h with ⟨d, hd, rfl⟩ | rfl
      · have hlt := hgraph.idxOf_lt hname hd
        refine ⟨hgraph.dependency_mem hname hd, ?_⟩
        simp only [cellRank]
        omega
      · have hlt := List.idxOf_lt_length_of_mem hname
        refine ⟨hname, ?_⟩
        simp only [cellRank]
        omega

theorem startup_wellFormed (fast : ℕ → Bool) :
    WellFormed (startupSystem settings fast) (cellRank settings) fun r => r.capped = true where
  known := trivial
  starts := by
    show Waits (startExecution settings)
    unfold startExecution
    dsimp only
    cases settings.existingNetwork with
    | some name => trivial
    | none => trivial
  permits k := (cellScript_conforms hgraph k).permits
  ranked k hk := (cellScript_conforms hgraph k).ranked fun groups h c hc =>
    mayAwait_rank hgraph hk (h.2 c hc)

/-- Where joins of up to the size of the graph are fail-fast, every join is. -/
theorem startup_quick {fast : ℕ → Bool} (hfast : ∀ n ≤ settings.graph.keys.length, fast n = true)
    (k : Cell) : Quick fast ((startupSystem settings fast).script k) := by
  have hpos : 1 ≤ settings.graph.keys.length := List.length_pos_of_mem hgraph.root_mem
  refine (cellScript_conforms hgraph k).quick fun groups h group hg => hfast _ ?_
  rcases h.1 group hg with hle | hle
  · exact hle.trans hpos
  · exact hle

end cells

end Ratect
