import Ratect.ProjectLoad

/-! # Who owns a shared network

`network_namespace_owner` and `validate_network_modes` (`config.rs`).  The walk follows `container:`
from one container to the next; where it stands after a path is determined (`Following.linear`), so
it either ends at the one container whose network is its own, or meets a name that is not declared
or one that it has passed (`networkNamespaceOwnerFrom_cases`). -/

namespace Ratect

section walk

variable (config : Config)

/-- A container shares the network of another name. -/
def SharesNetwork (name next : String) : Prop :=
  ∃ container,
    config.containers.get? name = some container ∧ container.networkMode = some (.container next)

/-- Following `container:` from `target`, past the containers of `path`, leads to a name. -/
inductive Following (target : String) : List String → String → Prop
  | start : Following target [] target
  | next {path : List String} {name next : String} : Following target path name →
      SharesNetwork config name next → Following target (path ++ [name]) next

/-- The owner of the network: declared, with a network of its own and passed only once, and its
mode. -/
def OwnsNetwork (target owner : String) (mode : Option String) : Prop :=
  ∃ path container, Following config target path owner ∧ (path ++ [owner]).Nodup ∧
    config.containers.get? owner = some container ∧
      (∀ next, container.networkMode ≠ some (.container next)) ∧
    mode = container.networkMode.map NetworkMode.written

/-- The walk meets a name that is not declared, or one that it has passed. -/
def LeadsNowhere (target : String) : Prop :=
  ∃ path name, Following config target path name ∧ (name ∉ config.containers.keys ∨ name ∈ path)

variable {config}

theorem SharesNetwork.unique {name next next' : String} (h : SharesNetwork config name next)
    (h' : SharesNetwork config name next') : next = next' := by
  obtain ⟨container, hget, hmode⟩ := h
  obtain ⟨container', hget', hmode'⟩ := h'
  rw [hget] at hget'
  obtain rfl := Option.some.inj hget'
  rw [hmode] at hmode'
  simpa using hmode'

theorem SharesNetwork.declared {name next : String} (h : SharesNetwork config name next) :
    name ∈ config.containers.keys := by
  obtain ⟨container, hget, -⟩ := h
  exact IndexMap.get?_isSome_iff.mp (by rw [hget]; rfl)

/-- Of two ways from one target the longer goes on from where the shorter ends. -/
theorem Following.linear {target name name' : String} {path path' : List String}
    (h : Following config target path name) (h' : Following config target path' name')
    (hle : path.length ≤ path'.length) :
    (path = path' ∧ name = name') ∨
      ((∃ next, SharesNetwork config name next) ∧ path ++ [name] <+: path') := by
  induction h' generalizing path name with
  | start =>
      cases h with
      | start => exact Or.inl ⟨rfl, rfl⟩
      | next _ _ => simp at hle
  | @next path' name' next' _ hshares ih =>
      rw [List.length_append, List.length_singleton] at hle
      by_cases hshort : path.length ≤ path'.length
      · right
        rcases ih h hshort with ⟨rfl, rfl⟩ | ⟨hnext, hpre⟩
        · exact ⟨⟨next', hshares⟩, List.prefix_rfl⟩
        · exact ⟨hnext, hpre.trans (List.prefix_append _ _)⟩
      · left
        cases h with
        | start => simp at hshort
        | @next path name _ h hshares' =>
            rw [List.length_append, List.length_singleton] at hle hshort
            rcases ih h (by omega) with ⟨rfl, rfl⟩ | ⟨-, hpre⟩
            · exact ⟨rfl, hshares'.unique hshares⟩
            · have hlen := hpre.length_le
              rw [List.length_append, List.length_singleton] at hlen
              omega

/-- Nothing follows the owner. -/
theorem OwnsNetwork.ends {owner next : String} {container : Config.Container}
    (hget : config.containers.get? owner = some container)
    (hmode : ∀ next, container.networkMode ≠ some (.container next)) :
    ¬ SharesNetwork config owner next := by
  rintro ⟨container', hget', hshares⟩
  rw [hget] at hget'
  obtain rfl := Option.some.inj hget'
  exact hmode next hshares

theorem OwnsNetwork.unique {target owner owner' : String} {mode mode' : Option String}
    (h : OwnsNetwork config target owner mode) (h' : OwnsNetwork config target owner' mode') :
    owner = owner' ∧ mode = mode' := by
  obtain ⟨path, container, hpath, -, hget, hown, rfl⟩ := h
  obtain ⟨path', container', hpath', -, hget', hown', rfl⟩ := h'
  have hsame : owner = owner' := by
    rcases le_total path.length path'.length with hle | hle
    · rcases hpath.linear hpath' hle with ⟨-, hsame⟩ | ⟨⟨next, hnext⟩, -⟩
      · exact hsame
      · exact absurd hnext (OwnsNetwork.ends hget hown)
    · rcases hpath'.linear hpath hle with ⟨-, hsame⟩ | ⟨⟨next, hnext⟩, -⟩
      · exact hsame.symm
      · exact absurd hnext (OwnsNetwork.ends hget' hown')
  subst hsame
  rw [hget] at hget'
  rw [Option.some.inj hget']
  exact ⟨rfl, rfl⟩

/-- A walk that ends at an owner meets neither an undeclared name nor one twice. -/
theorem OwnsNetwork.not_nowhere {target owner : String} {mode : Option String}
    (h : OwnsNetwork config target owner mode) : ¬ LeadsNowhere config target := by
  obtain ⟨path, container, hpath, hnodup, hget, hown, -⟩ := h
  rintro ⟨path', name, hpath', hname⟩
  have hdeclared : owner ∈ config.containers.keys := IndexMap.get?_isSome_iff.mp (by rw [hget]; rfl)
  have hnot : owner ∉ path := by
    intro hmem
    rw [List.nodup_append] at hnodup
    exact hnodup.2.2 owner hmem owner (List.mem_singleton_self _) rfl
  rcases le_total path.length path'.length with hle | hle
  · rcases hpath.linear hpath' hle with ⟨rfl, rfl⟩ | ⟨⟨next, hnext⟩, -⟩
    · exact hname.elim (fun h => h hdeclared) hnot
    · exact OwnsNetwork.ends hget hown hnext
  · rcases hpath'.linear hpath hle with ⟨rfl, rfl⟩ | ⟨⟨next, hnext⟩, hpre⟩
    · exact hname.elim (fun h => h hdeclared) hnot
    · have hfresh : (path' ++ [name]).Nodup := (List.nodup_append.mp hnodup).1.sublist hpre.sublist
      rw [List.nodup_append] at hfresh
      rcases hname with habsent | hmem
      · exact habsent hnext.declared
      · exact hfresh.2.2 name hmem name (List.mem_singleton_self _) rfl

/-! ### The walk ends -/

/-- As long as it has rounds left for the containers that it has not passed, the walk ends at the
owner or fails. -/
theorem networkNamespaceOwnerFrom_cases {name target : String} {rounds : ℕ} {path : List String}
    {owner : String} (hpath : Following config target path owner) (hnodup : path.Nodup)
    (hsub : path ⊆ config.containers.keys)
    (hrounds : config.containers.keys.length < rounds + path.length) :
    (∃ owner' mode, networkNamespaceOwnerFrom config name target rounds path owner =
      .ok (owner', mode) ∧
        OwnsNetwork config target owner' mode) ∨
      ((∃ message, networkNamespaceOwnerFrom config name target rounds path
        owner = .error message) ∧
        LeadsNowhere config target) := by
  induction rounds generalizing path owner with
  | zero =>
      have hlen : path.length ≤ config.containers.keys.length :=
        (List.subperm_of_subset hnodup hsub).length_le
      omega
  | succ rounds ih =>
      rw [networkNamespaceOwnerFrom]
      cases hget : config.containers.get? owner with
      | none =>
          right
          refine ⟨⟨_, rfl⟩, path, owner, hpath, Or.inl ?_⟩
          rw [← IndexMap.get?_isSome_iff, hget]
          simp
      | some container =>
          dsimp only
          have hdeclared : owner ∈ config.containers.keys :=
            IndexMap.get?_isSome_iff.mp (by rw [hget]; rfl)
          by_cases hmem : owner ∈ path
          · rw [if_pos hmem]
            exact Or.inr ⟨⟨_, rfl⟩, path, owner, hpath, Or.inr hmem⟩
          · rw [if_neg hmem]
            have hnodup' : (path ++ [owner]).Nodup := by
              simpa only [List.concat_eq_append] using hnodup.concat hmem
            cases hmode : container.networkMode with
            | none =>
                exact Or.inl ⟨_, _, rfl, path, container, hpath, hnodup', hget, by
                  simp [hmode], by rw [hmode]; rfl⟩
            | some mode =>
                cases mode with
                | container next =>
                    apply ih (hpath.next ⟨container, hget, hmode⟩) hnodup'
                    · exact List.append_subset.mpr ⟨hsub, by simpa using hdeclared⟩
                    · rw [List.length_append, List.length_singleton]
                      omega
                | host =>
                    exact Or.inl ⟨_, _, rfl, path, container, hpath, hnodup', hget, by simp [hmode],
                      by rw [hmode]; rfl⟩
                | none =>
                    exact Or.inl ⟨_, _, rfl, path, container, hpath, hnodup', hget, by simp [hmode],
                      by rw [hmode]; rfl⟩

/-- One round more than there are containers is enough, and more of them change nothing. -/
theorem networkNamespaceOwnerFrom_rounds {name target : String} {rounds rounds' : ℕ}
    {path : List String} {owner : String} (hnodup : path.Nodup)
    (hsub : path ⊆ config.containers.keys)
    (hrounds : config.containers.keys.length < rounds + path.length)
    (hrounds' : config.containers.keys.length < rounds' + path.length) :
    networkNamespaceOwnerFrom config name target rounds path owner =
      networkNamespaceOwnerFrom config name target rounds' path owner := by
  have hlen : path.length ≤ config.containers.keys.length :=
    (List.subperm_of_subset hnodup hsub).length_le
  induction rounds generalizing rounds' path owner with
  | zero => omega
  | succ rounds ih =>
      obtain ⟨rounds', rfl⟩ : ∃ k, rounds' = k + 1 := ⟨rounds' - 1, by omega⟩
      rw [networkNamespaceOwnerFrom, networkNamespaceOwnerFrom]
      cases hget : config.containers.get? owner with
      | none => rfl
      | some container =>
          dsimp only
          have hdeclared : owner ∈ config.containers.keys :=
            IndexMap.get?_isSome_iff.mp (by rw [hget]; rfl)
          by_cases hmem : owner ∈ path
          · rw [if_pos hmem, if_pos hmem]
          · rw [if_neg hmem, if_neg hmem]
            have hnodup' : (path ++ [owner]).Nodup := by
              simpa only [List.concat_eq_append] using hnodup.concat hmem
            have hsub' : path ++ [owner] ⊆ config.containers.keys :=
              List.append_subset.mpr ⟨hsub, by simpa using hdeclared⟩
            have hlen' := (List.subperm_of_subset hnodup' hsub').length_le
            rw [List.length_append, List.length_singleton] at hlen'
            have hnext : ∀ next,
                networkNamespaceOwnerFrom config name target rounds (path ++ [owner]) next =
                networkNamespaceOwnerFrom config name target rounds' (path ++ [owner]) next := by
              intro next
              apply ih hnodup' hsub'
              · rw [List.length_append, List.length_singleton]
                omega
              · rw [List.length_append, List.length_singleton]
                omega
              · rw [List.length_append, List.length_singleton]
                omega
            simp only [hnext]

theorem length_keys (containers : IndexMap String Config.Container) :
    containers.keys.length = containers.entries.length := List.length_map _

/-- From the target the walk ends at the owner, or fails. -/
theorem networkNamespaceOwner_cases (config : Config) (name target : String) :
    (∃ owner mode, networkNamespaceOwner config name target = .ok (owner, mode) ∧
        OwnsNetwork config target owner mode) ∨
      ((∃ message, networkNamespaceOwner config name target = .error message) ∧
        LeadsNowhere config target) := by
  apply networkNamespaceOwnerFrom_cases .start List.nodup_nil (List.nil_subset _)
  rw [length_keys]
  simp

theorem networkNamespaceOwner_ok_iff {name target owner : String} {mode : Option String} :
    networkNamespaceOwner config name target = .ok (owner, mode) ↔
      OwnsNetwork config target owner mode := by
  rcases networkNamespaceOwner_cases config name target with
    ⟨owner', mode', hrun, howns⟩ | ⟨⟨message, hrun⟩, hnowhere⟩
  · rw [hrun]
    constructor
    · intro h
      cases h
      exact howns
    · intro h
      obtain ⟨rfl, rfl⟩ := howns.unique h
      rfl
  · rw [hrun]
    constructor
    · intro h
      cases h
    · intro h
      exact absurd hnowhere h.not_nowhere

theorem networkNamespaceOwner_error_iff {name target : String} :
    (∃ message, networkNamespaceOwner config name target = .error message) ↔
      LeadsNowhere config target := by
  rcases networkNamespaceOwner_cases config name target with
      ⟨owner, mode, hrun, howns⟩ | ⟨hfails, hnowhere⟩
  · rw [hrun]
    constructor
    · rintro ⟨message, h⟩
      cases h
    · intro h
      exact absurd h howns.not_nowhere
  · exact ⟨fun _ => hnowhere, fun _ => hfails⟩

end walk

/-! ### What is refused of a container that shares a network -/

theorem refuseSet_eq_ok {fields : List (String × Bool)} {message : String → String} :
    refuseSet fields message = .ok () ↔ ∀ field ∈ fields, field.2 = false := by
  unfold refuseSet
  rw [← firstSet_eq_none]
  cases firstSet fields <;> simp

/-- A container that shares another one's network sets none of the fields that belong to its
owner. -/
theorem validateSharedNetwork_ok {config : Config} {name target : String}
    {container : Config.Container}
    (h : validateSharedNetwork config name container target = .ok ()) :
    ∀ field ∈ taskNetworkFields container ++ sharedNamespaceFields container, field.2 = false := by
  unfold validateSharedNetwork at h
  obtain ⟨⟨owner, ownerMode⟩, -, h⟩ := Except.bind_eq_ok.mp h
  obtain ⟨⟨⟩, -, h⟩ := Except.bind_eq_ok.mp h
  obtain ⟨⟨⟩, -, h⟩ := Except.bind_eq_ok.mp h
  cases ownerMode with
  | none =>
      obtain ⟨⟨⟩, -, h⟩ := Except.bind_eq_ok.mp h
      exact refuseSet_eq_ok.mp h
  | some mode =>
      obtain ⟨⟨⟩, -, h⟩ := Except.bind_eq_ok.mp h
      exact refuseSet_eq_ok.mp h

/-- No ports may be published of it. -/
theorem validatePublished_shared {config : Config} {task name target : String}
    {container : Config.Container} (hget : config.containers.get? name = some container)
    (hmode : container.networkMode = some (.container target)) :
    validatePublished config task name ≠ .ok () := by
  unfold validatePublished
  rw [hget, Option.bind_some, hmode]
  intro h
  obtain ⟨⟨owner, ownerMode⟩, -, h⟩ := Except.bind_eq_ok.mp h
  cases ownerMode <;> cases h

/-- The fields of a container that belong to the owner of its network are unset. -/
structure LeavesNetworkAlone (container : Config.Container) : Prop where
  ports : container.ports = none
  additionalHostnames : container.additionalHostnames = none
  externalHealthCheck : container.externalHealthCheck = none
  additionalHosts : container.additionalHosts = none
  dns : container.dns = none
  dnsSearch : container.dnsSearch = none
  dnsOptions : container.dnsOptions = none

/-- A task publishes no ports of a container. -/
structure PublishesNone (task : Config.Task) (name : String) : Prop where
  run : ∀ run, task.run = some run → run.container = name → run.ports = none
  customise : ∀ customise customisation, task.customise = some customise →
    customise.get? name = some customisation → customisation.ports = none

theorem publishesNone_of_not_mem {task : Config.Task} {name : String} (h : name ∉ task.publishes) :
    PublishesNone task name := by
  unfold Config.Task.publishes at h
  rw [List.mem_append, not_or] at h
  constructor
  · rintro run hrun rfl
    by_contra hports
    apply h.1
    rw [hrun]
    simpa [Option.isSome_iff_ne_none] using hports
  · intro customise customisation hcustomise hget
    by_contra hports
    apply h.2
    rw [hcustomise]
    refine List.mem_map.mpr ⟨(name, customisation),
      List.mem_filter.mpr ⟨IndexMap.mem_entries_of_get? hget, ?_⟩, rfl⟩
    simpa [Option.isSome_iff_ne_none] using hports

/-- The walk from the target of a shared network ends, at the owner if it meets only declared names
and none twice, and with an error otherwise.  Where every network mode is accepted, a container that
shares another one's network sets no field that belongs to the owner, and no task publishes ports of
it. -/
theorem network_ownership (config : Config) :
    (∀ name target, (∀ rounds, config.containers.entries.length < rounds →
          networkNamespaceOwnerFrom config name target rounds [] target =
            networkNamespaceOwner config name target) ∧
        (∀ owner mode, networkNamespaceOwner config name target = .ok (owner, mode) ↔
          OwnsNetwork config target owner mode) ∧
        ((∃ message, networkNamespaceOwner config name target = .error message) ↔
          LeadsNowhere config target)) ∧
      (validateNetworkModes config = .ok () → ∀ name container target,
        config.containers.get? name = some container →
          container.networkMode = some (.container target) →
          LeavesNetworkAlone container ∧ ∀ task, task ∈ config.tasks.values →
            PublishesNone task name) := by
  constructor
  · intro name target
    refine ⟨?_, fun _ _ => networkNamespaceOwner_ok_iff, networkNamespaceOwner_error_iff⟩
    intro rounds hrounds
    rw [← length_keys] at hrounds
    apply networkNamespaceOwnerFrom_rounds List.nodup_nil (List.nil_subset _)
      (by simpa using hrounds)
    rw [length_keys]
    simp
  · intro h name container target hget hmode
    unfold validateNetworkModes at h
    obtain ⟨⟨⟩, hcontainers, htasks⟩ := Except.bind_eq_ok.mp h
    rw [Except.forM_eq_ok] at hcontainers htasks
    constructor
    · have hvalid := hcontainers _ (IndexMap.mem_entries_of_get? hget)
      dsimp only [validateNetworkMode] at hvalid
      rw [hmode] at hvalid
      have hunset := validateSharedNetwork_ok hvalid
      simp only [taskNetworkFields, sharedNamespaceFields, List.cons_append, List.nil_append,
        List.forall_mem_cons, Option.isSome_eq_false_iff, Option.isNone_iff_eq_none] at hunset
      obtain ⟨hports, hnames, hcheck, hhosts, hdns, hsearch, hoptions, -⟩ := hunset
      exact ⟨hports, hnames, hcheck, hhosts, hdns, hsearch, hoptions⟩
    · intro task htask
      apply publishesNone_of_not_mem
      intro hpublished
      obtain ⟨e, he, rfl⟩ := List.mem_map.mp htask
      have hvalid := htasks e he
      rw [Except.forM_eq_ok] at hvalid
      exact validatePublished_shared hget hmode (hvalid name hpublished)

end Ratect
