import Ratect.Configuration
import Ratect.Loop

/-! # Inheritance between containers

`resolve_extends` (`config.rs`): every field that a container leaves unset is taken from the one it
`extends`, which is resolved first, and for the fields that are anchored on their declaring file the
supplier is noted.  `Inherits` says what a container ends up with, without the order in which it is
found; every container that is resolved does (`resolveExtends_ok`), and each noted supplier declares
the value it supplies (`Inherits.supplied`). -/

namespace Ratect

/-- `Suppliers`: for each field anchored on its declaring file, the container whose value it is. -/
structure Suppliers where
  image : String
  volumes : String
  buildDirectory : String
  buildSecrets : String
  buildSsh : String
  runAsCurrentUser : String
deriving DecidableEq, Repr

namespace Suppliers

/-- `own`: a container that supplied every field itself. -/
def own (name : String) : Suppliers := ⟨name, name, name, name, name, name⟩

/-- A field that the container sets itself, or the parent's supplier. -/
def pick {α : Type} (field : Option α) (own inherited : String) : String :=
  if field.isNone then inherited else own

/-- The suppliers of a container that extends another one. -/
def extending (name : String) (declared : Config.Container)
    (inherited : Suppliers) : Suppliers where
  image := pick declared.image name inherited.image
  volumes := pick declared.volumes name inherited.volumes
  buildDirectory := pick declared.buildDirectory name inherited.buildDirectory
  buildSecrets := pick declared.buildSecrets name inherited.buildSecrets
  buildSsh := pick declared.buildSsh name inherited.buildSsh
  runAsCurrentUser := pick declared.runAsCurrentUser name inherited.runAsCurrentUser

end Suppliers

/-- `inherit_container_fields`: `extends` and the two fields that no file writes are not
inherited. -/
def inheritContainerFields (child parent : Config.Container) : Config.Container :=
  { child with
    image := child.image.or parent.image
    imagePullPolicy := child.imagePullPolicy.or parent.imagePullPolicy
    buildDirectory := child.buildDirectory.or parent.buildDirectory
    buildArgs := child.buildArgs.or parent.buildArgs
    dockerfile := child.dockerfile.or parent.dockerfile
    buildTarget := child.buildTarget.or parent.buildTarget
    buildSecrets := child.buildSecrets.or parent.buildSecrets
    buildSsh := child.buildSsh.or parent.buildSsh
    volumes := child.volumes.or parent.volumes
    dependencies := child.dependencies.or parent.dependencies
    environment := child.environment.or parent.environment
    runAsCurrentUser := child.runAsCurrentUser.or parent.runAsCurrentUser
    additionalHostnames := child.additionalHostnames.or parent.additionalHostnames
    additionalHosts := child.additionalHosts.or parent.additionalHosts
    ports := child.ports.or parent.ports
    healthCheck := child.healthCheck.or parent.healthCheck
    setupCommands := child.setupCommands.or parent.setupCommands
    runToCompletion := child.runToCompletion.or parent.runToCompletion
    externalHealthCheck := child.externalHealthCheck.or parent.externalHealthCheck
    workingDirectory := child.workingDirectory.or parent.workingDirectory
    command := child.command.or parent.command
    entrypoint := child.entrypoint.or parent.entrypoint
    labels := child.labels.or parent.labels
    capabilitiesToAdd := child.capabilitiesToAdd.or parent.capabilitiesToAdd
    capabilitiesToDrop := child.capabilitiesToDrop.or parent.capabilitiesToDrop
    privileged := child.privileged.or parent.privileged
    shmSize := child.shmSize.or parent.shmSize
    devices := child.devices.or parent.devices
    enableInitProcess := child.enableInitProcess.or parent.enableInitProcess
    logDriver := child.logDriver.or parent.logDriver
    logOptions := child.logOptions.or parent.logOptions
    stopSignal := child.stopSignal.or parent.stopSignal
    stopGracePeriod := child.stopGracePeriod.or parent.stopGracePeriod
    ulimits := child.ulimits.or parent.ulimits
    dns := child.dns.or parent.dns
    dnsSearch := child.dnsSearch.or parent.dnsSearch
    dnsOptions := child.dnsOptions.or parent.dnsOptions
    networkMode := child.networkMode.or parent.networkMode
    user := child.user.or parent.user
    group := child.group.or parent.group
    groups := child.groups.or parent.groups
    identity := child.identity.or parent.identity }

/-- A resolved container carries no `extends` of its own. -/
def Config.Container.consumed (container : Config.Container) : Config.Container :=
  { container with extendsName := none }

/-- A container with its inheritance resolved. -/
structure ResolvedContainer where
  name : String
  container : Config.Container
  suppliers : Suppliers

/-- The containers resolved so far. -/
abbrev ResolvedContainers := List ResolvedContainer

/-- The resolved container of a name. -/
def ResolvedContainers.get? (resolved : ResolvedContainers) (name : String) :
    Option ResolvedContainer :=
  resolved.find? fun r => r.name = name

/-- Why inheritance cannot be resolved. -/
inductive ExtendsError where
  | cyclic (name : String) (chain : List String)
  | undefined (name parent : String)
deriving DecidableEq, Repr

/-- The message of an error. -/
def ExtendsError.message : ExtendsError → String
  | cyclic name chain =>
      s!"The container '{name}' has a cyclic 'extends': " ++ " -> ".intercalate chain
  | undefined name parent =>
      s!"The container '{name}' extends '{printableString parent}', which is not defined."

section resolve

variable (source : IndexMap String Config.Container)

/-- `resolve_container_extends`.  Each call adds a declared name to `ancestors`, so with as many of
them as there are containers the name is found among them and `depth` is never used up
(`resolveContainerExtends_depth`). -/
def resolveContainerExtends (depth : ℕ) (ancestors : List String) (resolved : ResolvedContainers)
    (name : String) : Except ExtendsError ResolvedContainers :=
  if (resolved.get? name).isSome then .ok resolved
  else if name ∈ ancestors then .error (.cyclic name (ancestors ++ [name]))
  else
    match source.get? name with
    | none => .error (.undefined name name)
    | some declared =>
        match declared.extendsName with
        | none => .ok (resolved ++ [⟨name, declared.consumed, .own name⟩])
        | some parent =>
            if parent ∉ source.keys then .error (.undefined name parent)
            else
              match depth with
              | 0 => .error (.cyclic name (ancestors ++ [name]))
              | depth + 1 => do
                  let resolved ← resolveContainerExtends depth (ancestors ++ [name]) resolved parent
                  match resolved.get? parent with
                  | none => .error (.undefined name parent)
                  | some inherited =>
                      return resolved ++ [⟨name,
                        (inheritContainerFields declared inherited.container).consumed,
                        .extending name declared inherited.suppliers⟩]

/-- Every container in declaration order, the ones before it being resolved. -/
def resolveAllExtends : List String → ResolvedContainers → Except ExtendsError ResolvedContainers
  | [], resolved => .ok resolved
  | name :: names, resolved => do
      let resolved ← resolveContainerExtends source source.entries.length [] resolved name
      resolveAllExtends names resolved

/-- `resolve_extends`: the containers with what they inherit, and who supplied it. -/
def resolveExtends :
    Except ExtendsError (IndexMap String Config.Container × ResolvedContainers) := do
  let resolved ← resolveAllExtends source source.keys []
  return (source.mapEntries fun name
    declared => ((resolved.get? name).map (·.container)).getD declared, resolved)

/-- `depth` is never used up: past as many ancestors as there are containers, more of it changes
nothing. -/
theorem resolveContainerExtends_depth {depth depth' : ℕ} {ancestors : List String}
    (hdepth : Loop.unseen source.keys ancestors ≤ depth)
    (hdepth' : Loop.unseen source.keys ancestors ≤ depth') (resolved : ResolvedContainers)
    (name : String) :
    resolveContainerExtends source depth ancestors resolved name =
      resolveContainerExtends source depth' ancestors resolved name := by
  induction depth generalizing depth' ancestors resolved name with
  | zero =>
      rw [resolveContainerExtends, resolveContainerExtends]
      by_cases hancestor : name ∈ ancestors
      · simp only [if_pos hancestor]
      · simp only [if_neg hancestor]
        cases hdeclared : source.get? name with
        | none => rfl
        | some declared =>
            have hmem : name ∈ source.keys := IndexMap.get?_isSome_iff.mp (by rw [hdeclared]; rfl)
            have hlt := Loop.unseen_lt hmem hancestor
            omega
  | succ depth ih =>
      rw [resolveContainerExtends, resolveContainerExtends]
      by_cases hancestor : name ∈ ancestors
      · simp only [if_pos hancestor]
      · simp only [if_neg hancestor]
        cases hdeclared : source.get? name with
        | none => rfl
        | some declared =>
            have hmem : name ∈ source.keys := IndexMap.get?_isSome_iff.mp (by rw [hdeclared]; rfl)
            have hlt := Loop.unseen_lt hmem hancestor
            obtain ⟨depth', rfl⟩ : ∃ k, depth' = k + 1 := ⟨depth' - 1, by omega⟩
            have hparent : ∀ parent,
                resolveContainerExtends source depth (ancestors ++ [name]) resolved parent =
                resolveContainerExtends source depth' (ancestors ++ [name]) resolved parent :=
              fun parent => ih (by omega) (by omega) resolved parent
            simp only [hparent]

/-! ### What a container inherits -/

/-- What a container ends up with. -/
inductive Inherits : String → Config.Container → Suppliers → Prop
  | own {name : String} {declared : Config.Container} :
      source.get? name = some declared → declared.extendsName = none →
      Inherits name declared.consumed (.own name)
  | extending {name parent : String} {declared inherited : Config.Container}
      {suppliers : Suppliers} :
      source.get? name = some declared → declared.extendsName = some parent →
      Inherits parent inherited suppliers →
      Inherits name (inheritContainerFields declared inherited).consumed
        (.extending name declared suppliers)

/-- Everything resolved so far is what its container inherits. -/
def AllInherit (resolved : ResolvedContainers) : Prop :=
  ∀ r ∈ resolved, Inherits source r.name r.container r.suppliers

variable {source}

theorem ResolvedContainers.get?_eq_some {resolved : ResolvedContainers} {name : String}
    {r : ResolvedContainer} (h : resolved.get? name = some r) : r ∈ resolved ∧ r.name = name := by
  unfold ResolvedContainers.get? at h
  exact ⟨List.mem_of_find?_eq_some h, by simpa using List.find?_some h⟩

theorem ResolvedContainers.isSome_get? {resolved : ResolvedContainers} {name : String} :
    (resolved.get? name).isSome = true ↔ ∃ r ∈ resolved, r.name = name := by
  unfold ResolvedContainers.get?
  rw [List.find?_isSome]
  simp

theorem AllInherit.append {resolved : ResolvedContainers} (h : AllInherit source resolved)
    {r : ResolvedContainer} (hr : Inherits source r.name r.container r.suppliers) :
    AllInherit source (resolved ++ [r]) := by
  intro r' hr'
  rcases List.mem_append.mp hr' with hr' | hr'
  · exact h r' hr'
  · rw [List.mem_singleton.mp hr']
    exact hr

/-- A container was resolved before, inherits nothing, or inherits from one that is resolved
first. -/
theorem resolveContainerExtends_cases {depth : ℕ} {ancestors : List String}
    {resolved resolved' : ResolvedContainers} {name : String}
    (h : resolveContainerExtends source depth ancestors resolved name = .ok resolved') :
    (resolved' = resolved ∧ ∃ r ∈ resolved, r.name = name) ∨
      (∃ declared, source.get? name = some declared ∧ declared.extendsName = none ∧
        resolved' = resolved ++ [⟨name, declared.consumed, .own name⟩]) ∨
      ∃ declared parent depth' mid inherited, source.get? name = some declared ∧
        declared.extendsName = some parent ∧ depth = depth' + 1 ∧
        resolveContainerExtends source depth' (ancestors ++ [name]) resolved parent = .ok mid ∧
        mid.get? parent = some inherited ∧
        resolved' = mid ++ [⟨name, (inheritContainerFields declared inherited.container).consumed,
          .extending name declared inherited.suppliers⟩] := by
  unfold resolveContainerExtends at h
  split at h
  · next hsome =>
      cases h
      exact Or.inl ⟨rfl, ResolvedContainers.isSome_get?.mp hsome⟩
  · split at h
    · cases h
    · split at h
      · cases h
      · next declared hdeclared =>
          split at h
          · next hextends =>
              cases h
              exact Or.inr (Or.inl ⟨declared, hdeclared, hextends, rfl⟩)
          · next parent hextends =>
              split at h
              · cases h
              · split at h
                · cases h
                · next depth' =>
                    obtain ⟨mid, hmid, h⟩ := Except.bind_eq_ok.mp h
                    split at h
                    · cases h
                    · next inherited hinherited =>
                        cases h
                        exact Or.inr (Or.inr ⟨declared, parent, depth', mid, inherited,
                          hdeclared, hextends,
                          rfl, hmid, hinherited, rfl⟩)

/-- Resolving one container keeps what was resolved, and adds the container. -/
theorem resolveContainerExtends_ok {depth : ℕ} {ancestors : List String}
    {resolved resolved' : ResolvedContainers} {name : String} (h : AllInherit source resolved)
    (hrun : resolveContainerExtends source depth ancestors resolved name = .ok resolved') :
    AllInherit source resolved' ∧ resolved ⊆ resolved' ∧ ∃ r ∈ resolved', r.name = name := by
  induction depth generalizing ancestors resolved resolved' name with
  | zero =>
      rcases resolveContainerExtends_cases hrun with
          ⟨rfl, hname⟩ | ⟨declared, hdeclared, hextends, rfl⟩ | ⟨_, _, _, _, _, _, _, hdepth, _⟩
      · exact ⟨h, List.Subset.refl _, hname⟩
      · exact ⟨h.append (.own hdeclared hextends), List.subset_append_left _ _, _,
          List.mem_append_right _ List.mem_cons_self, rfl⟩
      · omega
  | succ depth ih =>
      rcases resolveContainerExtends_cases hrun with
          ⟨rfl, hname⟩ | ⟨declared, hdeclared, hextends, rfl⟩ |
          ⟨declared, parent, depth', mid, inherited, hdeclared, hextends, hdepth, hmid,
            hinherited, rfl⟩
      · exact ⟨h, List.Subset.refl _, hname⟩
      · exact ⟨h.append (.own hdeclared hextends), List.subset_append_left _ _, _,
          List.mem_append_right _ List.mem_cons_self, rfl⟩
      · obtain rfl : depth = depth' := Nat.succ.inj hdepth
        obtain ⟨hall, hsub, -⟩ := ih h hmid
        obtain ⟨hmem, hparent⟩ := ResolvedContainers.get?_eq_some hinherited
        have hinherits := hall inherited hmem
        rw [hparent] at hinherits
        exact ⟨hall.append (.extending hdeclared hextends hinherits),
          List.Subset.trans hsub (List.subset_append_left _ _), _,
          List.mem_append_right _ List.mem_cons_self, rfl⟩

theorem resolveAllExtends_ok {names : List String} {resolved resolved' : ResolvedContainers}
    (h : AllInherit source resolved)
    (hrun : resolveAllExtends source names resolved = .ok resolved') :
    AllInherit source resolved' ∧ resolved ⊆ resolved' ∧
      ∀ name ∈ names, ∃ r ∈ resolved', r.name = name := by
  induction names generalizing resolved with
  | nil =>
      cases hrun
      exact ⟨h, List.Subset.refl _, by simp⟩
  | cons name names ih =>
      obtain ⟨mid, hmid, hrun⟩ := Except.bind_eq_ok.mp hrun
      obtain ⟨hall, hsub, r, hr, hname⟩ := resolveContainerExtends_ok h hmid
      obtain ⟨hall', hsub', hnames⟩ := ih hall hrun
      refine ⟨hall', List.Subset.trans hsub hsub', ?_⟩
      intro name' hname'
      rcases List.mem_cons.mp hname' with rfl | hname'
      · exact ⟨r, hsub' hr, hname⟩
      · exact hnames name' hname'

/-- Every container ends up with what it inherits, under the suppliers that were noted for it. -/
theorem resolveExtends_ok {containers : IndexMap String Config.Container}
    {resolved : ResolvedContainers} (h : resolveExtends source = .ok (containers, resolved))
    {name : String} {container : Config.Container} (hget : containers.get? name = some container) :
    ∃ r, resolved.get? name = some r ∧ r.container = container ∧
      Inherits source name container r.suppliers := by
  unfold resolveExtends at h
  obtain ⟨resolved', hall, h⟩ := Except.bind_eq_ok.mp h
  cases h
  obtain ⟨hinherit, -, hnames⟩ := resolveAllExtends_ok (by simp [AllInherit]) hall
  rw [IndexMap.get?_mapEntries] at hget
  obtain ⟨declared, hdeclared, hcontainer⟩ := Option.map_eq_some_iff.mp hget
  have hmem : name ∈ source.keys := IndexMap.get?_isSome_iff.mp (by rw [hdeclared]; rfl)
  have hsome := ResolvedContainers.isSome_get?.mpr (hnames name hmem)
  obtain ⟨r, hr⟩ := Option.isSome_iff_exists.mp hsome
  obtain ⟨hr', hname⟩ := ResolvedContainers.get?_eq_some hr
  rw [hr] at hcontainer
  obtain rfl : r.container = container := hcontainer
  refine ⟨r, hr, rfl, ?_⟩
  have hinherits := hinherit r hr'
  rw [hname] at hinherits
  exact hinherits

theorem resolveExtends_keys {containers : IndexMap String Config.Container}
    {resolved : ResolvedContainers} (h : resolveExtends source = .ok (containers, resolved)) :
    containers.keys = source.keys := by
  unfold resolveExtends at h
  obtain ⟨resolved', -, h⟩ := Except.bind_eq_ok.mp h
  cases h
  exact IndexMap.keys_mapEntries _ _

/-! ### Suppliers -/

/-- A supplier declares the value that the container ends up with. -/
structure SuppliedBy (source : IndexMap String Config.Container) (container : Config.Container)
    (suppliers : Suppliers) : Prop where
  image : ∃ declared, source.get? suppliers.image = some declared ∧ container.image = declared.image
  volumes : ∃ declared,
    source.get? suppliers.volumes = some declared ∧ container.volumes = declared.volumes
  buildDirectory : ∃ declared, source.get? suppliers.buildDirectory = some declared ∧
    container.buildDirectory = declared.buildDirectory
  buildSecrets : ∃ declared, source.get? suppliers.buildSecrets = some declared ∧
    container.buildSecrets = declared.buildSecrets
  buildSsh : ∃ declared, source.get? suppliers.buildSsh = some declared ∧
    container.buildSsh = declared.buildSsh
  runAsCurrentUser : ∃ declared, source.get? suppliers.runAsCurrentUser = some declared ∧
    container.runAsCurrentUser = declared.runAsCurrentUser

/-- One field: set by the container itself, or supplied to its parent. -/
theorem supplied_pick {α : Type} {field : Config.Container → Option α} {name supplier : String}
    {declared : Config.Container} {inherited : Option α}
    (hdeclared : source.get? name = some declared)
    (h : ∃ d, source.get? supplier = some d ∧ inherited = field d) :
    ∃ d, source.get? (Suppliers.pick (field declared) name supplier) = some d ∧
      (field declared).or inherited = field d := by
  unfold Suppliers.pick
  cases hfield : field declared with
  | none => simpa using h
  | some v => exact ⟨declared, hdeclared, by rw [hfield]; rfl⟩

theorem Inherits.supplied {name : String} {container : Config.Container} {suppliers : Suppliers}
    (h : Inherits source name container suppliers) : SuppliedBy source container suppliers := by
  induction h with
  | @own name declared hdeclared _ =>
      exact ⟨⟨declared, hdeclared, rfl⟩, ⟨declared, hdeclared, rfl⟩, ⟨declared, hdeclared, rfl⟩,
        ⟨declared, hdeclared, rfl⟩, ⟨declared, hdeclared, rfl⟩, ⟨declared, hdeclared, rfl⟩⟩
  | extending hdeclared _ _ ih =>
      exact ⟨supplied_pick hdeclared ih.image, supplied_pick hdeclared ih.volumes,
        supplied_pick hdeclared ih.buildDirectory, supplied_pick hdeclared ih.buildSecrets,
        supplied_pick hdeclared ih.buildSsh, supplied_pick hdeclared ih.runAsCurrentUser⟩

/-- The nearest container on the chain of `extends` that sets a field. -/
inductive Supplies {α : Type} (source : IndexMap String Config.Container)
    (field : Config.Container → Option α) : String → String → Prop
  | own {name : String} {declared : Config.Container} :
      source.get? name = some declared → (field declared).isSome = true →
        Supplies source field name name
  | inherited {name parent supplier : String} {declared : Config.Container} :
      source.get? name = some declared → field declared = none →
        declared.extendsName = some parent →
      Supplies source field parent supplier → Supplies source field name supplier

/-- The supplier that is noted for a field is the nearest container that sets it. -/
theorem Inherits.noted {α : Type} {field : Config.Container → Option α} (noted : Suppliers → String)
    (hown : ∀ name, noted (.own name) = name)
    (hextending : ∀ name declared suppliers,
      noted (.extending name declared suppliers) =
        Suppliers.pick (field declared) name (noted suppliers))
    {name : String} {container : Config.Container} {suppliers : Suppliers}
    (h : Inherits source name container suppliers) {supplier : String}
    (hsupplies : Supplies source field name supplier) : noted suppliers = supplier := by
  induction h with
  | own hdeclared hextends =>
      rw [hown]
      cases hsupplies with
      | own _ _ => rfl
      | inherited hdeclared' _ hparent _ =>
          rw [hdeclared] at hdeclared'
          cases hdeclared'
          rw [hextends] at hparent
          cases hparent
  | extending hdeclared hextends _ ih =>
      rw [hextending]
      cases hsupplies with
      | own hdeclared' hset =>
          rw [hdeclared] at hdeclared'
          cases hdeclared'
          obtain ⟨value, hvalue⟩ := Option.isSome_iff_exists.mp hset
          rw [hvalue]
          rfl
      | inherited hdeclared' hunset hparent hsupplies =>
          rw [hdeclared] at hdeclared'
          cases hdeclared'
          rw [hextends] at hparent
          cases hparent
          unfold Suppliers.pick
          rw [if_pos (by rw [hunset]; rfl)]
          exact ih hsupplies

end resolve

end Ratect
