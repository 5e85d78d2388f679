import Ratect.Inheritance

/-! # Inheritance along the chain

`resolve_extends` (`config.rs`), exactly.  It succeeds if and only if every name that is extended is
declared and no container extends itself, however far along (`resolveExtends_succeeds_iff`).  A
container then holds in every field what the first container on its chain of `extends` that sets the
field declares there, and what it holds does not depend on the order of the declarations
(`extends_resolution`). -/

namespace Ratect

/-- A field that is inherited, whatever it holds. -/
abbrev InheritableField := Σ α : Type, Config.Container → Option α

/-- The fields of `inherit_container_fields`, in its order. -/
def inheritableFields : List InheritableField :=
  [⟨_, (·.image)⟩, ⟨_, (·.imagePullPolicy)⟩, ⟨_, (·.buildDirectory)⟩, ⟨_, (·.buildArgs)⟩,
    ⟨_, (·.dockerfile)⟩,
    ⟨_, (·.buildTarget)⟩, ⟨_, (·.buildSecrets)⟩, ⟨_, (·.buildSsh)⟩, ⟨_, (·.volumes)⟩,
    ⟨_, (·.dependencies)⟩,
    ⟨_, (·.environment)⟩, ⟨_, (·.runAsCurrentUser)⟩, ⟨_, (·.additionalHostnames)⟩,
    ⟨_, (·.additionalHosts)⟩,
    ⟨_, (·.ports)⟩, ⟨_, (·.healthCheck)⟩, ⟨_, (·.setupCommands)⟩, ⟨_, (·.runToCompletion)⟩,
    ⟨_, (·.externalHealthCheck)⟩, ⟨_, (·.workingDirectory)⟩, ⟨_, (·.command)⟩, ⟨_, (·.entrypoint)⟩,
    ⟨_, (·.labels)⟩, ⟨_, (·.capabilitiesToAdd)⟩, ⟨_, (·.capabilitiesToDrop)⟩, ⟨_, (·.privileged)⟩,
    ⟨_, (·.shmSize)⟩, ⟨_, (·.devices)⟩, ⟨_, (·.enableInitProcess)⟩, ⟨_, (·.logDriver)⟩,
    ⟨_, (·.logOptions)⟩,
    ⟨_, (·.stopSignal)⟩, ⟨_, (·.stopGracePeriod)⟩, ⟨_, (·.ulimits)⟩,
    ⟨_, (·.dns)⟩, ⟨_, (·.dnsSearch)⟩,
    ⟨_, (·.dnsOptions)⟩, ⟨_, (·.networkMode)⟩, ⟨_, (·.user)⟩, ⟨_, (·.group)⟩, ⟨_, (·.groups)⟩,
    ⟨_, (·.identity)⟩]

/-- Every one of them follows the same rule. -/
theorem inherit_field {f : InheritableField} (hf : f ∈ inheritableFields)
    (child parent : Config.Container) :
    f.2 (inheritContainerFields child parent).consumed = (f.2 child).or (f.2 parent) := by
  unfold inheritableFields at hf
  fin_cases hf <;> rfl

theorem consumed_field {f : InheritableField} (hf : f ∈ inheritableFields)
    (container : Config.Container) : f.2 container.consumed = f.2 container := by
  unfold inheritableFields at hf
  fin_cases hf <;> rfl

/-- Nothing else is read from a file but `extends`: two containers that agree on it, on what is set
after inheritance and on every field of the list are the same. -/
theorem eq_of_inheritableFields {c d : Config.Container} (hextends : c.extendsName = d.extendsName)
    (hbundle : c.buildDirectoryInBundle = d.buildDirectoryInBundle)
    (hreports : c.reportsReadinessFor = d.reportsReadinessFor)
    (hfields : ∀ f ∈ inheritableFields, f.2 c = f.2 d) : c = d := by
  unfold inheritableFields at hfields
  simp only [List.forall_mem_cons, List.not_mem_nil, false_implies, implies_true,
    and_true] at hfields
  cases c
  cases d
  simp_all

/-- A field whose supplier is noted. -/
structure NotedField where
  /-- What the field holds. -/
  α : Type
  field : Config.Container → Option α
  noted : Suppliers → String

/-- The fields of `Suppliers`, in its order. -/
def notedFields : List NotedField :=
  [⟨_, (·.image), (·.image)⟩, ⟨_, (·.volumes), (·.volumes)⟩,
    ⟨_, (·.buildDirectory), (·.buildDirectory)⟩,
    ⟨_, (·.buildSecrets), (·.buildSecrets)⟩, ⟨_, (·.buildSsh), (·.buildSsh)⟩,
    ⟨_, (·.runAsCurrentUser), (·.runAsCurrentUser)⟩]

theorem noted_own {n : NotedField} (hn : n ∈ notedFields) (name : String) :
    n.noted (.own name) = name := by
  unfold notedFields at hn
  fin_cases hn <;> rfl

theorem noted_extending {n : NotedField} (hn : n ∈ notedFields) (name : String)
    (declared : Config.Container) (inherited : Suppliers) :
    n.noted (.extending name declared inherited) =
      Suppliers.pick (n.field declared) name (n.noted inherited) := by
  unfold notedFields at hn
  fin_cases hn <;> rfl

/-- The supplier is noted of fields that are inherited. -/
theorem noted_inheritable {n : NotedField} (hn : n ∈ notedFields) :
    (⟨n.α, n.field⟩ : InheritableField) ∈ inheritableFields := by
  unfold notedFields at hn
  unfold inheritableFields
  fin_cases hn <;> simp

/-! ### The chain -/

section chain

variable (source : IndexMap String Config.Container)

/-- A container extends another name, whether that is declared or not. -/
def Extends (name parent : String) : Prop :=
  ∃ declared, source.get? name = some declared ∧ declared.extendsName = some parent

/-- The containers from one up its `extends`, itself first and one that extends nothing last. -/
inductive ExtendsChain : String → List (String × Config.Container) → Prop
  | last {name : String} {declared : Config.Container} :
      source.get? name = some declared → declared.extendsName = none →
        ExtendsChain name [(name, declared)]
  | extending {name parent : String} {declared : Config.Container}
      {chain : List (String × Config.Container)} :
      source.get? name = some declared → declared.extendsName = some parent →
        ExtendsChain parent chain →
      ExtendsChain name ((name, declared) :: chain)

/-- What a container ends up with: of every field what the first on its chain declares that sets
it. -/
structure TakenAlong (name : String) (container : Config.Container) (suppliers : Suppliers)
    (chain : List (String × Config.Container)) : Prop where
  along : ExtendsChain source name chain
  fields : ∀ f ∈ inheritableFields, f.2 container = chain.findSome? fun e => f.2 e.2
  noted : ∀ n ∈ notedFields, ∃ declared, (n.noted suppliers, declared) ∈ chain ∧
    n.field container = n.field declared
  extendsName : container.extendsName = none

variable {source}

theorem ExtendsChain.unique {name : String} {chain chain' : List (String × Config.Container)}
    (h : ExtendsChain source name chain)
    (h' : ExtendsChain source name chain') : chain = chain' := by
  induction h generalizing chain' with
  | last hdeclared hextends =>
      cases h' with
      | last hdeclared' _ =>
          rw [hdeclared] at hdeclared'
          rw [Option.some.inj hdeclared']
      | extending hdeclared' hextends' _ =>
          rw [hdeclared] at hdeclared'
          rw [← Option.some.inj hdeclared', hextends] at hextends'
          cases hextends'
  | extending hdeclared hextends _ ih =>
      cases h' with
      | last hdeclared' hextends' =>
          rw [hdeclared] at hdeclared'
          rw [← Option.some.inj hdeclared', hextends] at hextends'
          cases hextends'
      | extending hdeclared' hextends' hchain' =>
          rw [hdeclared] at hdeclared'
          obtain rfl := Option.some.inj hdeclared'
          rw [hextends] at hextends'
          obtain rfl := Option.some.inj hextends'
          rw [ih hchain']

/-- The chain of what a container extends is what is left of its own. -/
theorem ExtendsChain.next {name parent : String} {chain : List (String × Config.Container)}
    (h : ExtendsChain source name chain) (hextends : Extends source name parent) :
    ∃ rest, ExtendsChain source parent rest ∧ rest.length < chain.length := by
  obtain ⟨declared, hdeclared, hparent⟩ := hextends
  cases h with
  | last hdeclared' hnone =>
      rw [hdeclared] at hdeclared'
      rw [← Option.some.inj hdeclared', hparent] at hnone
      cases hnone
  | extending hdeclared' hparent' hrest =>
      rw [hdeclared] at hdeclared'
      obtain rfl := Option.some.inj hdeclared'
      rw [hparent] at hparent'
      obtain rfl := Option.some.inj hparent'
      exact ⟨_, hrest, by simp⟩

theorem ExtendsChain.along {name ancestor : String} {chain : List (String × Config.Container)}
    (h : ExtendsChain source name chain)
    (hextends : Relation.TransGen (Extends source) name ancestor) :
    ∃ rest, ExtendsChain source ancestor rest ∧ rest.length < chain.length := by
  induction hextends with
  | single hextends => exact h.next hextends
  | tail _ hextends ih =>
      obtain ⟨rest, hrest, hlt⟩ := ih
      obtain ⟨rest', hrest', hlt'⟩ := hrest.next hextends
      exact ⟨rest', hrest', by omega⟩

/-- A chain that ends meets no container twice. -/
theorem ExtendsChain.acyclic {name : String} {chain : List (String × Config.Container)}
    (h : ExtendsChain source name chain) : ¬ Relation.TransGen (Extends source) name name := by
  intro hcycle
  obtain ⟨rest, hrest, hlt⟩ := h.along hcycle
  rw [h.unique hrest] at hlt
  omega

theorem ExtendsChain.declared {name : String} {chain : List (String × Config.Container)}
    (h : ExtendsChain source name chain) : name ∈ source.keys := by
  apply IndexMap.get?_isSome_iff.mp
  cases h with
  | last hdeclared _ => rw [hdeclared]; rfl
  | extending hdeclared _ _ => rw [hdeclared]; rfl

/-- A container ends up with what is taken along its chain. -/
theorem Inherits.taken {name : String} {container : Config.Container} {suppliers : Suppliers}
    (h : Inherits source name container suppliers) :
    ∃ chain, TakenAlong source name container suppliers chain := by
  induction h with
  | @own name declared hdeclared hextends =>
      refine ⟨[(name, declared)], .last hdeclared hextends, ?_, ?_, rfl⟩
      · intro f hf
        rw [consumed_field hf]
        simp
      · intro n hn
        refine ⟨declared, ?_, consumed_field (noted_inheritable hn) declared⟩
        rw [noted_own hn]
        exact List.mem_singleton_self _
  | @extending name parent declared inherited suppliers hdeclared hextends _ ih =>
      obtain ⟨chain, htaken⟩ := ih
      refine ⟨(name, declared) :: chain, .extending hdeclared hextends htaken.along, ?_, ?_, rfl⟩
      · intro f hf
        rw [inherit_field hf, htaken.fields f hf, List.findSome?_cons]
        cases f.2 declared <;> rfl
      · intro n hn
        have hvalue : n.field (inheritContainerFields declared inherited).consumed =
            (n.field declared).or (n.field inherited) :=
              inherit_field (noted_inheritable hn) declared inherited
        rw [noted_extending hn, hvalue]
        unfold Suppliers.pick
        cases hfield : n.field declared with
        | none =>
            obtain ⟨supplier, hmem, hvalue⟩ := htaken.noted n hn
            exact ⟨supplier, List.mem_cons_of_mem _ hmem, by simpa using hvalue⟩
        | some value => exact ⟨declared, List.mem_cons_self, by simp [hfield]⟩

/-! ### When inheritance can be resolved -/

/-- What is needed for it: every name that is extended is declared, and no chain leads back to its
start. -/
structure Resolvable (source : IndexMap String Config.Container) : Prop where
  declared : ∀ name parent, Extends source name parent → parent ∈ source.keys
  acyclic : ∀ name, ¬ Relation.TransGen (Extends source) name name

theorem Resolvable.container (h : Resolvable source) {depth : ℕ} {ancestors : List String}
    {resolved : ResolvedContainers} {name : String} (hall : AllInherit source resolved)
    (hname : name ∈ source.keys) (hdepth : Loop.unseen source.keys ancestors ≤ depth)
    (hancestors : ∀ a ∈ ancestors, Relation.TransGen (Extends source) a name) :
    ∃ resolved', resolveContainerExtends source depth ancestors resolved name = .ok resolved' := by
  have hnot : name ∉ ancestors := fun hmem => h.acyclic name (hancestors name hmem)
  have hlt := Loop.unseen_lt hname hnot
  obtain ⟨declared, hdeclared⟩ := Option.isSome_iff_exists.mp (IndexMap.get?_isSome_iff.mpr hname)
  induction depth generalizing ancestors resolved name declared with
  | zero => omega
  | succ depth ih =>
      unfold resolveContainerExtends
      by_cases hsome : (resolved.get? name).isSome = true
      · exact ⟨resolved, if_pos hsome⟩
      · rw [if_neg hsome, if_neg hnot, hdeclared]
        dsimp only
        cases hextends : declared.extendsName with
        | none => exact ⟨_, rfl⟩
        | some parent =>
            have hedge : Extends source name parent := ⟨declared, hdeclared, hextends⟩
            have hparent : parent ∈ source.keys := h.declared name parent hedge
            have hancestors' : ∀ a ∈ ancestors ++ [name],
                Relation.TransGen (Extends source) a parent := by
              intro a ha
              rcases List.mem_append.mp ha with ha | ha
              · exact (hancestors a ha).tail hedge
              · rw [List.mem_singleton.mp ha]
                exact .single hedge
            have hnot' : parent ∉ ancestors ++ [name] :=
              fun hmem => h.acyclic parent (hancestors' parent hmem)
            obtain ⟨declared', hdeclared'⟩ :=
              Option.isSome_iff_exists.mp (IndexMap.get?_isSome_iff.mpr hparent)
            obtain ⟨mid, hmid⟩ :=
              ih hall hparent (by omega) hancestors' hnot' (Loop.unseen_lt hparent hnot')
              declared' hdeclared'
            obtain ⟨-, -, r, hr, hrname⟩ := resolveContainerExtends_ok hall hmid
            obtain ⟨inherited, hinherited⟩ :=
              Option.isSome_iff_exists.mp (ResolvedContainers.isSome_get?.mpr ⟨r, hr, hrname⟩)
            dsimp only
            rw [if_neg (fun habsent => habsent hparent), hmid]
            dsimp only [bind, Except.bind]
            rw [hinherited]
            exact ⟨_, rfl⟩

theorem Resolvable.containers (h : Resolvable source) {names : List String}
    (hnames : names ⊆ source.keys) {resolved : ResolvedContainers}
    (hall : AllInherit source resolved) :
    ∃ resolved', resolveAllExtends source names resolved = .ok resolved' := by
  induction names generalizing resolved with
  | nil => exact ⟨resolved, rfl⟩
  | cons name names ih =>
      obtain ⟨hname, hnames⟩ := List.cons_subset.mp hnames
      have hdepth : Loop.unseen source.keys [] ≤ source.entries.length := by
        unfold Loop.unseen IndexMap.keys
        simp
      obtain ⟨mid, hmid⟩ := h.container hall hname hdepth (by simp)
      obtain ⟨resolved', hresolved'⟩ := ih hnames (resolveContainerExtends_ok hall hmid).1
      refine ⟨resolved', ?_⟩
      rw [resolveAllExtends, hmid]
      exact hresolved'

/-- Inheritance is resolved exactly where it can be. -/
theorem resolveExtends_succeeds_iff :
    (∃ result, resolveExtends source = .ok result) ↔ Resolvable source := by
  constructor
  · rintro ⟨⟨containers, resolved⟩, h⟩
    have hchain : ∀ name ∈ source.keys, ∃ chain, ExtendsChain source name chain := by
      intro name hname
      rw [← resolveExtends_keys h] at hname
      obtain ⟨container, hget⟩ := Option.isSome_iff_exists.mp (IndexMap.get?_isSome_iff.mpr hname)
      obtain ⟨r, -, -, hinherits⟩ := resolveExtends_ok h hget
      obtain ⟨chain, htaken⟩ := hinherits.taken
      exact ⟨chain, htaken.along⟩
    have hextends : ∀ name parent, Extends source name parent → name ∈ source.keys := by
      rintro name parent ⟨declared, hdeclared, -⟩
      exact IndexMap.get?_isSome_iff.mp (by rw [hdeclared]; rfl)
    constructor
    · intro name parent hedge
      obtain ⟨chain, hchain⟩ := hchain name (hextends name parent hedge)
      obtain ⟨rest, hrest, -⟩ := hchain.next hedge
      exact hrest.declared
    · intro name hcycle
      obtain ⟨parent, hedge, -⟩ := Relation.TransGen.head'_iff.mp hcycle
      obtain ⟨chain, hchain⟩ := hchain name (hextends name parent hedge)
      exact hchain.acyclic hcycle
  · intro h
    have hnone : AllInherit source [] := fun _ hr => absurd hr List.not_mem_nil
    obtain ⟨resolved, hresolved⟩ := h.containers (List.Subset.refl _) hnone
    unfold resolveExtends
    rw [hresolved]
    exact ⟨_, rfl⟩

end chain

/-! ### The order of the declarations -/

section order

variable {source source' : IndexMap String Config.Container}

theorem Extends.of_get? (h : ∀ name, source'.get? name = source.get? name) :
    Extends source' = Extends source := by
  funext name parent
  unfold Extends
  rw [h name]

theorem Resolvable.of_get? (h : ∀ name, source'.get? name = source.get? name)
    (hr : Resolvable source) : Resolvable source' := by
  have hextends := Extends.of_get? h
  constructor
  · intro name parent hedge
    rw [hextends] at hedge
    apply IndexMap.get?_isSome_iff.mp
    rw [h parent]
    exact IndexMap.get?_isSome_iff.mpr (hr.declared name parent hedge)
  · rw [hextends]
    exact hr.acyclic

theorem Inherits.of_get? (h : ∀ name, source'.get? name = source.get? name) {name : String}
    {container : Config.Container} {suppliers : Suppliers}
    (hi : Inherits source name container suppliers) :
    Inherits source' name container suppliers := by
  induction hi with
  | own hdeclared hextends => exact .own (by rw [h, hdeclared]) hextends
  | extending hdeclared hextends _ ih => exact .extending (by rw [h, hdeclared]) hextends ih

/-- What a container inherits is determined. -/
theorem Inherits.unique {name : String} {container container' : Config.Container}
    {suppliers suppliers' : Suppliers} (h : Inherits source name container suppliers)
    (h' : Inherits source name container' suppliers') :
    container = container' ∧ suppliers = suppliers' := by
  induction h generalizing container' suppliers' with
  | own hdeclared hextends =>
      cases h' with
      | own hdeclared' _ =>
          rw [hdeclared] at hdeclared'
          obtain rfl := Option.some.inj hdeclared'
          exact ⟨rfl, rfl⟩
      | extending hdeclared' hextends' _ =>
          rw [hdeclared] at hdeclared'
          rw [← Option.some.inj hdeclared', hextends] at hextends'
          cases hextends'
  | extending hdeclared hextends _ ih =>
      cases h' with
      | own hdeclared' hextends' =>
          rw [hdeclared] at hdeclared'
          rw [← Option.some.inj hdeclared', hextends] at hextends'
          cases hextends'
      | extending hdeclared' hextends' hparent =>
          rw [hdeclared] at hdeclared'
          obtain rfl := Option.some.inj hdeclared'
          rw [hextends] at hextends'
          obtain rfl := Option.some.inj hextends'
          obtain ⟨rfl, rfl⟩ := ih hparent
          exact ⟨rfl, rfl⟩

end order

/-- Only declared containers are resolved. -/
theorem resolveExtends_get?_isSome {source containers : IndexMap String Config.Container}
    {resolved : ResolvedContainers}
    (h : resolveExtends source = .ok (containers, resolved)) (name : String) :
    (resolved.get? name).isSome = true ↔ name ∈ source.keys := by
  constructor
  · intro hsome
    obtain ⟨r, hr, rfl⟩ := ResolvedContainers.isSome_get?.mp hsome
    unfold resolveExtends at h
    obtain ⟨resolved', hall, h⟩ := Except.bind_eq_ok.mp h
    cases h
    have hnone : AllInherit source [] := fun _ hr => absurd hr List.not_mem_nil
    obtain ⟨chain, htaken⟩ := ((resolveAllExtends_ok hnone hall).1 r hr).taken
    exact htaken.along.declared
  · intro hname
    rw [← resolveExtends_keys h] at hname
    obtain ⟨container, hget⟩ := Option.isSome_iff_exists.mp (IndexMap.get?_isSome_iff.mpr hname)
    obtain ⟨r, hr, -⟩ := resolveExtends_ok h hget
    rw [hr]
    rfl

/-- What two resolutions of the same declarations, in whichever order, leave a container with and
note of it. -/
theorem resolveExtends_order
    {source source' containers containers' : IndexMap String Config.Container}
    {resolved resolved' : ResolvedContainers} (hsame : ∀ name, source'.get? name = source.get? name)
    (h : resolveExtends source = .ok (containers, resolved))
    (h' : resolveExtends source' = .ok (containers', resolved')) (name : String) :
    containers'.get? name = containers.get? name ∧
      (resolved'.get? name).map (·.suppliers) = (resolved.get? name).map (·.suppliers) := by
  have hkeys : name ∈ source'.keys ↔ name ∈ source.keys := by
    rw [← IndexMap.get?_isSome_iff, ← IndexMap.get?_isSome_iff, hsame]
  by_cases hname : name ∈ source.keys
  · have hname' := hkeys.mpr hname
    rw [← resolveExtends_keys h] at hname
    rw [← resolveExtends_keys h'] at hname'
    obtain ⟨container, hget⟩ := Option.isSome_iff_exists.mp (IndexMap.get?_isSome_iff.mpr hname)
    obtain ⟨container', hget'⟩ := Option.isSome_iff_exists.mp (IndexMap.get?_isSome_iff.mpr hname')
    obtain ⟨r, hr, -, hinherits⟩ := resolveExtends_ok h hget
    obtain ⟨r', hr', -, hinherits'⟩ := resolveExtends_ok h' hget'
    obtain ⟨hcontainer, hsuppliers⟩ := (hinherits.of_get? hsame).unique hinherits'
    rw [hget, hget', hr, hr', hcontainer, Option.map_some, Option.map_some, hsuppliers]
    exact ⟨rfl, rfl⟩
  · have hname' := fun hmem => hname (hkeys.mp hmem)
    have hget : containers.get? name = none := by
      rw [← Option.not_isSome_iff_eq_none, IndexMap.get?_isSome_iff, resolveExtends_keys h]
      exact hname
    have hget' : containers'.get? name = none := by
      rw [← Option.not_isSome_iff_eq_none, IndexMap.get?_isSome_iff, resolveExtends_keys h']
      exact hname'
    have hr : resolved.get? name = none := by
      rw [← Option.not_isSome_iff_eq_none, resolveExtends_get?_isSome h]
      exact hname
    have hr' : resolved'.get? name = none := by
      rw [← Option.not_isSome_iff_eq_none, resolveExtends_get?_isSome h']
      exact hname'
    rw [hget, hget', hr, hr']
    exact ⟨rfl, rfl⟩

/-- Inheritance is resolved if and only if every name that is extended is declared and no chain is
cyclic.  The containers then stand in declaration order, each holds in every field the first value
that its chain declares, each noted supplier is a container of the chain that declares what the
field holds, and the order of the declarations changes none of this. -/
theorem extends_resolution (source : IndexMap String Config.Container) :
    ((∃ result, resolveExtends source = .ok result) ↔
        (∀ name parent, Extends source name parent → parent ∈ source.keys) ∧
          ∀ name, ¬ Relation.TransGen (Extends source) name name) ∧
      (∀ containers resolved, resolveExtends source = .ok (containers, resolved) →
        containers.keys = source.keys ∧
          ∀ name container, containers.get? name = some container → ∃ r chain,
            resolved.get? name = some r ∧
            ExtendsChain source name chain ∧
            (∀ f ∈ inheritableFields, f.2 container = chain.findSome? fun e => f.2 e.2) ∧
            (∀ n ∈ notedFields, ∃ declared, (n.noted r.suppliers, declared) ∈ chain ∧
              n.field container = n.field declared) ∧
            container.extendsName = none) ∧
      ∀ source', source'.entries.Perm source.entries →
        ((∃ result, resolveExtends source' = .ok result) ↔
          ∃ result, resolveExtends source = .ok result) ∧
          ∀ containers resolved containers' resolved',
            resolveExtends source = .ok (containers, resolved) →
            resolveExtends source' = .ok (containers', resolved') → ∀ name,
              containers'.get? name = containers.get? name ∧
                (resolved'.get? name).map (·.suppliers) =
                  (resolved.get? name).map (·.suppliers) := by
  refine ⟨?_, ?_, ?_⟩
  · rw [resolveExtends_succeeds_iff]
    exact ⟨fun h => ⟨h.declared, h.acyclic⟩, fun h => ⟨h.1, h.2⟩⟩
  · intro containers resolved h
    refine ⟨resolveExtends_keys h, ?_⟩
    intro name container hget
    obtain ⟨r, hr, -, hinherits⟩ := resolveExtends_ok h hget
    obtain ⟨chain, htaken⟩ := hinherits.taken
    exact ⟨r, chain, hr, htaken.along, htaken.fields, htaken.noted, htaken.extendsName⟩
  · intro source' hperm
    have hsame : ∀ name, source'.get? name = source.get? name := IndexMap.get?_of_perm hperm
    constructor
    · rw [resolveExtends_succeeds_iff, resolveExtends_succeeds_iff]
      exact ⟨fun h => h.of_get? fun name => (hsame name).symm, fun h => h.of_get? hsame⟩
    · exact fun _ _ _ _ h h' => resolveExtends_order hsame h h'

end Ratect
