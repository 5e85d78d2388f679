import Ratect.ConvertedConfig
import Ratect.EscapedPaths

/-! # The rules for a converted project

A project that passed the rules of Batect's format (`FollowsBatect`) passes those of the native
format once it is converted: no container of it has a native field but the `identity` that a
`run_as_current_user` has become, and everything that the other rules read is as it was
(`ported_eq`).  Only the home of such an identity may be refused (`Ported.passesValues`). -/

namespace Ratect

open Paths (Path)

variable {machine : Machine} {unicode : Char → Bool} {threePlaces : ℕ → String} {configFile : Path}
  {loaded loaded' : LoadedConfig}

/-! ### Batect's rules -/

/-- No rule for a container of Batect's format is broken. -/
structure Config.Container.FollowsBatect (unicode : Char → Bool) (name : String)
    (container : Config.Container) :
    Prop where
  extendsName : container.extendsName = none
  runToCompletion : container.runToCompletion.getD false = false
  externalHealthCheck : container.externalHealthCheck = none
  runIn : ∀ command ∈ container.setupCommands.getD [], command.runIn = none
  scopes : ∀ mount, .cache mount ∈ container.volumes.getD [] → mount.scope = none
  stopSignal : container.stopSignal = none
  stopGracePeriod : container.stopGracePeriod = none
  ulimits : container.ulimits = none
  dns : container.dns = none
  dnsSearch : container.dnsSearch = none
  dnsOptions : container.dnsOptions = none
  networkMode : container.networkMode = none
  user : container.user = none
  group : container.group = none
  groups : container.groups = none
  identity : container.identity = none
  imageSource : imageSourceOffence name container = none
  image : ∀ image, container.image = some image →
    Expressions.containsExpression unicode image = false

theorem mem_batectShapedContainers {entry : BatectShaped}
    (h : entry ∈ loaded.batectShapedContainers configFile) :
    (entry.name, entry.container) ∈ loaded.config.containers.entries ∧
      loaded.format.isBatectShaped (loaded.containerOrigins.get? entry.name) = true := by
  unfold LoadedConfig.batectShapedContainers at h
  obtain ⟨e, he, rfl⟩ := List.mem_map.mp h
  exact List.mem_filter.mp he

theorem exists_batectShaped (configFile : Path) {name : String} {container : Config.Container}
    (h : (name, container) ∈ loaded.config.containers.entries)
    (hshaped : loaded.format.isBatectShaped (loaded.containerOrigins.get? name) = true) :
    ∃ entry ∈ loaded.batectShapedContainers configFile,
      entry.name = name ∧ entry.container = container :=
  ⟨_, List.mem_map_of_mem (List.mem_filter.mpr ⟨h, hshaped⟩), rfl, rfl⟩

theorem rejectNative_eq_ok {offence : Config.Container → Option String}
    {containers : List BatectShaped} :
    rejectNative offence containers = .ok () ↔
      ∀ entry ∈ containers, offence entry.container = none := by
  unfold rejectNative
  simp only [rejectFirst_eq_ok, Option.map_eq_none_iff]

theorem rejectSharedCachesInCompat_eq_ok {containers : List BatectShaped} :
    rejectSharedCachesInCompat containers = .ok () ↔
      ∀ entry ∈ containers, ∀ mount, .cache mount ∈ entry.container.volumes.getD [] →
        mount.scope = none := by
  unfold rejectSharedCachesInCompat
  simp only [rejectNative_eq_ok, List.findSome?_eq_none_iff]
  refine forall₂_congr fun entry _ => ⟨?_, ?_⟩
  · intro h mount hmount
    have hnone := h _ hmount
    simp only at hnone
    split at hnone
    · cases hnone
    · next hscope => simpa using hscope
  · intro h volume hvolume
    cases volume with
    | cache mount =>
        simp only
        rw [h mount hvolume]
        rfl
    | host => rfl
    | tmpfs => rfl

/-- One check after another. -/
theorem Except.seq_eq_ok {ε α : Type} {x : Except ε Unit} {y : Except ε α} {a : α} :
    (do x; y) = .ok a ↔ x = .ok () ∧ y = .ok a := by
  rw [Except.bind_eq_ok]
  exact ⟨fun ⟨_, hx, hy⟩ => ⟨hx, hy⟩, fun ⟨hx, hy⟩ => ⟨(), hx, hy⟩⟩

/-- What a project passes that breaks no rule about single fields. -/
theorem rejectIncompatibleFields_eq_ok :
    rejectIncompatibleFields unicode configFile loaded = .ok () ↔
    (∀ entry ∈ loaded.batectShapedContainers configFile,
      entry.container.FollowsBatect unicode entry.name) ∧
      ∀ e ∈ loaded.config.containers.entries,
        e.2.runAsCurrentUser = none ∨
          loaded.format.isBatectShaped (loaded.containerOrigins.get? e.1) = true := by
  have hrunIn : ∀ {containers : List BatectShaped},
      rejectSetupCommandRunInCompat containers = .ok () ↔
      ∀ entry ∈ containers, ∀ command ∈ entry.container.setupCommands.getD [],
        command.runIn = none := by
    intro containers
    unfold rejectSetupCommandRunInCompat
    rw [rejectNative_eq_ok]
    refine forall₂_congr fun entry _ => ?_
    simp
  have himage : ∀ {containers : List BatectShaped},
      rejectImageExpressionsInCompat unicode containers = .ok () ↔
      ∀ entry ∈ containers, ∀ image, entry.container.image = some image →
        Expressions.containsExpression unicode image = false := by
    intro containers
    unfold rejectImageExpressionsInCompat
    rw [rejectFirst_eq_ok]
    refine forall₂_congr fun entry _ => ?_
    rw [Option.map_eq_none_iff, Option.filter_eq_none_iff]
    simp
  unfold rejectIncompatibleFields
  simp only [Except.seq_eq_ok, rejectExtendsInCompat, rejectRunToCompletionInCompat,
    rejectExternalHealthCheckInCompat, hrunIn, rejectSharedCachesInCompat_eq_ok,
    rejectStopSignalInCompat, rejectStopGracePeriodInCompat, rejectUlimitsInCompat,
    rejectDnsInCompat, rejectNetworkModeInCompat, rejectPassthroughIdentityInCompat,
    rejectIdentityInCompat,
    validateImageSourcesInCompat, himage, rejectNativeFields_eq_ok, rejectFirst_eq_ok,
    Option.map_eq_none_iff,
    rejectRunAsCurrentUserInToml, Except.forM_eq_ok, Except.ensure_eq_ok, List.mem_cons,
    List.not_mem_nil, or_false,
    forall_eq_or_imp, forall_eq, Option.isSome_eq_false_iff, Option.isNone_iff_eq_none]
  constructor
  · rintro ⟨hextends, hcompletion, hexternal, hrunIn, hscopes, hsignal, hgrace, hulimits, hdns,
      hnetwork, hpassthrough,
      hidentity, hsource, himage, huser⟩
    refine ⟨fun entry he => ?_, huser⟩
    obtain ⟨hdns, hsearch, hoptions⟩ := hdns entry he
    obtain ⟨hentryUser, hgroup, hgroups⟩ := hpassthrough entry he
    exact ⟨hextends entry he, hcompletion entry he, hexternal entry he, hrunIn entry he,
      hscopes entry he, hsignal entry he,
      hgrace entry he, hulimits entry he, hdns, hsearch, hoptions, hnetwork entry he,
      hentryUser, hgroup, hgroups,
      hidentity entry he, hsource entry he, himage entry he⟩
  · rintro ⟨h, huser⟩
    exact ⟨fun e he => (h e he).extendsName, fun e he => (h e he).runToCompletion, fun e he =>
      (h e he).externalHealthCheck,
      fun e he => (h e he).runIn, fun e he => (h e he).scopes, fun e he => (h e he).stopSignal,
      fun e he => (h e he).stopGracePeriod, fun e he => (h e he).ulimits,
      fun e he => ⟨(h e he).dns, (h e he).dnsSearch, (h e he).dnsOptions⟩, fun e he =>
        (h e he).networkMode,
      fun e he => ⟨(h e he).user, (h e he).group, (h e he).groups⟩, fun e he => (h e he).identity,
      fun e he => (h e he).imageSource, fun e he => (h e he).image, huser⟩

/-- In Batect's format they all do. -/
theorem followsBatect_of_compat (hformat : loaded.format = .compat)
    (h : rejectIncompatibleFields unicode configFile loaded = .ok ()) {name : String}
    {container : Config.Container} (hc : (name, container) ∈ loaded.config.containers.entries) :
    container.FollowsBatect unicode name := by
  have hshaped : loaded.format.isBatectShaped (loaded.containerOrigins.get? name) = true := by
    rw [hformat]
    cases loaded.containerOrigins.get? name <;> rfl
  obtain ⟨entry, hentry, rfl, rfl⟩ := exists_batectShaped configFile hc hshaped
  exact (rejectIncompatibleFields_eq_ok.mp h).1 entry hentry

/-! ### What conversion leaves of a container -/

/-- Four fields are all that it changes. -/
theorem ported_eq (unicode : Char → Bool) (loaded : LoadedConfig) (name : String)
    (container : Config.Container) :
    ∃ image volumes user identity, loaded.ported unicode name container =
      { container with
        image := image, volumes := volumes, runAsCurrentUser := user, identity := identity } := by
  unfold LoadedConfig.ported
  split
  · exact ⟨_, _, _, _, rfl⟩
  · exact ⟨container.image, container.volumes, container.runAsCurrentUser, container.identity, rfl⟩

@[simp]
theorem ported_dependsOn (name : String) (container : Config.Container) :
    (loaded.ported unicode name container).dependsOn = container.dependsOn := by
  obtain ⟨_, _, _, _, heq⟩ := ported_eq unicode loaded name container
  rw [heq]
  rfl

/-- The host path of a compact volume alone is another one. -/
theorem portedVolume_host (unicode : Char → Bool) (mount : Config.LocalVolumeMount) :
    ((Config.VolumeMount.host mount).converted unicode).asObject =
      .host { mount with
        host := if mount.localIsExpression true then
          mount.host else Expressions.literalAsExpression unicode mount.host
        compact := false } := by
  unfold Config.VolumeMount.converted
  simp only
  split <;> rfl

theorem caches_ported (container : Config.Container) :
    (container.ported unicode).caches = container.caches := by
  unfold Config.Container.caches Config.Container.ported
  cases container.volumes with
  | none => rfl
  | some volumes =>
      rw [Option.map_some, Option.getD_some, Option.getD_some, List.filterMap_map]
      apply List.filterMap_congr
      intro volume _
      cases volume with
      | host mount =>
          rw [Function.comp_apply, portedVolume_host]
      | cache => rfl
      | tmpfs => rfl

@[simp]
theorem ported_caches (name : String) (container : Config.Container) :
    (loaded.ported unicode name container).caches = container.caches := by
  unfold LoadedConfig.ported
  split
  · exact caches_ported container
  · rfl

namespace Ported

variable (h : Ported unicode loaded loaded')

include h

theorem container {name : String} {container' : Config.Container}
    (hc : (name, container') ∈ loaded'.config.containers.entries) :
    ∃ container, (name, container) ∈ loaded.config.containers.entries ∧
      container' = loaded.ported unicode name container := by
  obtain ⟨⟨name', container⟩, hc', heq⟩ := h.containers.mem_right hc
  cases heq
  exact ⟨container, hc', rfl⟩

theorem task {name : String} {task' : Config.Task}
    (ht : (name, task') ∈ loaded'.config.tasks.entries) :
    ∃ task, (name, task) ∈ loaded.config.tasks.entries ∧ task.Reordered task' := by
  obtain ⟨⟨name', task⟩, ht', rfl, hsame⟩ := h.tasks.mem_right ht
  exact ⟨task, ht', hsame⟩

theorem mem_keys {name : String} :
    name ∈ loaded'.config.containers.keys ↔ name ∈ loaded.config.containers.keys := by
  have hperm : (loaded'.config.containers.keys).Perm loaded.config.containers.keys :=
    h.containers.map_perm fun a b hab => by rw [hab]
  exact hperm.mem_iff

theorem get? (name : String) : loaded'.config.containers.get? name =
    (loaded.config.containers.get? name).map (loaded.ported unicode name) := by
  cases hget : loaded.config.containers.get? name with
  | some container =>
      obtain ⟨e, he, rfl⟩ := h.containers.mem_left (IndexMap.mem_entries_of_get? hget)
      exact IndexMap.get?_of_mem he
  | none =>
      rw [Option.map_none, IndexMap.get?_eq_none_iff]
      intro container' hc
      obtain ⟨container, hc', -⟩ := h.container hc
      exact IndexMap.get?_eq_none_iff.mp hget container hc'

end Ported

/-! ### Rules about single fields -/

section fields

variable (h : Ported unicode loaded loaded')
    (hreject : rejectIncompatibleFields unicode configFile loaded = .ok ())

include h hreject

theorem Ported.followsBatect {name : String} {container : Config.Container}
    (hc : (name, container) ∈ loaded.config.containers.entries) :
    container.FollowsBatect unicode name :=
  followsBatect_of_compat h.source hreject hc

theorem Ported.passesFields (configFile' : Path) :
    rejectIncompatibleFields unicode configFile' loaded' = .ok () := by
  refine rejectIncompatibleFields_eq_ok.mpr ⟨?_, ?_⟩
  · intro entry hentry
    obtain ⟨hc, hshaped⟩ := mem_batectShapedContainers hentry
    obtain ⟨container, hc', heq⟩ := h.container hc
    rw [h.batectShaped _ (IndexMap.mem_keys_of_mem hc'), Option.isSome_iff_ne_none] at hshaped
    unfold LoadedConfig.ported at heq
    rw [if_neg (by simpa using hshaped)] at heq
    rw [heq]
    exact h.followsBatect hreject hc'
  · rintro ⟨name, container'⟩ hc
    obtain ⟨container, hc', rfl⟩ := h.container hc
    rw [h.batectShaped _ (IndexMap.mem_keys_of_mem hc')]
    unfold LoadedConfig.ported
    split
    · exact Or.inl rfl
    · next hbundle => exact Or.inr (by simpa [Option.isSome_iff_ne_none] using hbundle)

theorem Ported.passesDnsServers : validateDnsServers loaded'.config = .ok () := by
  refine Except.forM_eq_ok.mpr ?_
  rintro ⟨name, container'⟩ hc
  obtain ⟨container, hc', rfl⟩ := h.container hc
  have hdns : (loaded.ported unicode name container).dns = none := by
    obtain ⟨_, _, _, _, heq⟩ := ported_eq unicode loaded name container
    rw [heq]
    exact (h.followsBatect hreject hc').dns
  simp only [hdns]
  rfl

end fields

/-! ### Values -/

/-- No home that a conversion makes an identity's holds a `..`, unless it is still read as an
expression. -/
def LoadedConfig.DotlessHomes (loaded : LoadedConfig) (unicode : Char → Bool) : Prop :=
  ∀ name container, (name, container) ∈ loaded.config.containers.entries →
    loaded.containerBoundaries.get? name = none → ∀ home,
      container.runAsCurrentUser = some ⟨true, some home⟩ →
      identityHomeHasAParentComponent home = true → becomesExpression unicode home = true

theorem checkLiteralPath_unbounded {anchor : Anchor} (hanchor : anchor.boundary = none)
    (path : Text) (contained : HostPathField) :
    checkLiteralPath machine unicode path anchor contained = .ok () := by
  unfold checkLiteralPath
  rw [hanchor]
  rfl

theorem checkAgents_unbounded {anchor anchor' : Anchor} (hanchor : anchor.boundary = none)
    (hanchor' : anchor'.boundary = none) (ids : List String) (agents : List Config.SshAgent) :
    checkAgents machine unicode anchor' ids agents =
      checkAgents machine unicode anchor ids agents := by
  induction agents generalizing ids with
  | nil => rfl
  | cons agent agents ih =>
      unfold checkAgents
      simp only [checkLiteralPath_unbounded hanchor, checkLiteralPath_unbounded hanchor', ih]

/-- Outside Batect's format every host path is an expression. -/
theorem localIsExpression_native (mount : Config.LocalVolumeMount) :
    mount.localIsExpression false = true := by
  unfold Config.LocalVolumeMount.localIsExpression
  rw [Bool.and_false]
  rfl

theorem checkVolume_ported {anchor : Anchor} (hanchor : anchor.boundary = none)
    {volume : Config.VolumeMount} (h : checkVolume machine unicode anchor volume = .ok ()) :
    checkVolume machine unicode { anchor with batectShaped := false }
      (volume.converted unicode).asObject = .ok () := by
  cases volume with
  | host mount =>
      rw [portedVolume_host]
      unfold checkVolume
      simp only [localIsExpression_native, if_true]
      exact checkLiteralPath_unbounded hanchor _ _
  | cache mount => exact h
  | tmpfs mount => rfl

/-- A converted container is refused for its home alone. -/
theorem checkContainer_ported {anchor : Anchor} (hanchor : anchor.boundary = none)
    {container : Config.Container} (hidentity : container.identity = none)
    (h : checkContainer machine unicode anchor container = .ok ()) :
    checkContainer machine unicode { anchor with batectShaped := false }
      (container.ported unicode) = .ok () ↔
      ∀ home, container.runAsCurrentUser = some ⟨true, some home⟩ →
        identityHomeHasAParentComponent home = true → becomesExpression unicode home = true := by
  unfold checkContainer at h ⊢
  simp only [Except.seq_eq_ok] at h ⊢
  obtain ⟨hvolumes, -, -, hcommand, hentrypoint, hsetup, hagents, huser, -⟩ := h
  have hhome : checkField (checkIdentity unicode) (container.portedIdentity unicode) = .ok () ↔
      ∀ home, container.runAsCurrentUser = some ⟨true, some home⟩ →
        identityHomeHasAParentComponent home = true → becomesExpression unicode home = true := by
    unfold Config.Container.portedIdentity
    split
    · next home hhome =>
        rw [hhome] at huser
        refine (checkIdentity_literalAsExpression huser).trans ⟨?_, fun hdots => hdots home hhome⟩
        intro hdots home' hsame
        rw [hhome] at hsame
        cases hsame
        exact hdots
    · next hnone =>
        rw [hidentity]
        exact iff_of_true rfl fun home hhome => absurd hhome (hnone home)
  constructor
  · rintro ⟨-, -, -, -, -, -, -, -, hported⟩
    exact hhome.mp hported
  · intro hdots
    refine ⟨?_, ?_, ?_, hcommand, hentrypoint, hsetup, ?_, rfl, hhome.mpr hdots⟩
    · refine Except.forM_eq_ok.mpr ?_
      intro volume' hvolume
      cases hset : container.volumes with
      | none =>
          unfold Config.Container.ported at hvolume
          rw [hset] at hvolume
          cases hvolume
      | some volumes =>
          unfold Config.Container.ported at hvolume
          rw [hset] at hvolume hvolumes
          obtain ⟨volume, hin, rfl⟩ := List.mem_map.mp hvolume
          exact checkVolume_ported hanchor (Except.forM_eq_ok.mp hvolumes volume hin)
    · unfold Config.Container.ported checkField
      split
      · rfl
      · exact checkLiteralPath_unbounded hanchor _ _
    · refine Except.forM_eq_ok.mpr ?_
      intro e _
      unfold checkSecret
      split
      · rfl
      · exact checkLiteralPath_unbounded hanchor _ _
    · rw [checkAgents_unbounded hanchor]
      · exact hagents
      · exact hanchor

theorem Config.Task.Reordered.mem_customised {task task' : Config.Task} (h : task.Reordered task')
    {name : String} :
    name ∈ (task'.customise.map IndexMap.keys).getD [] ↔
      name ∈ (task.customise.map IndexMap.keys).getD [] := by
  have hrel := h.customise
  generalize task.customise = customise at hrel ⊢
  generalize task'.customise = customise' at hrel ⊢
  cases hrel with
  | none => exact Iff.rfl
  | some hperm => exact (hperm.map Prod.fst).mem_iff

section anchors

variable (h : Ported unicode loaded loaded')

include h

/-- A container is anchored where it was, and follows Batect's rules if it is a bundle's. -/
theorem Ported.anchor {name : String} (hname : name ∈ loaded.config.containers.keys)
    (suppliers : ResolvedContainers) (projectDirectory : Path) :
    ({ loaded'.provenance with suppliers := suppliers } : Provenance).anchor name projectDirectory =
      { loaded.provenance.anchor name projectDirectory with
        batectShaped := (loaded.containerBoundaries.get? name).isSome } := by
  have hshaped : decide (name ∈ loaded'.provenance.batectShaped) =
      (loaded.containerBoundaries.get? name).isSome := by
    unfold LoadedConfig.provenance
    simp only [List.mem_filter, h.mem_keys, hname, true_and, h.batectShaped name hname,
      Bool.decide_eq_true]
  unfold Provenance.anchor
  simp only [hshaped]
  unfold LoadedConfig.provenance
  simp only [h.basePaths name hname, h.boundaries name hname]

theorem Ported.batect_anchor {name : String} (hname : name ∈ loaded.config.containers.keys)
    (projectDirectory : Path) :
    (loaded.provenance.anchor name projectDirectory).batectShaped = true := by
  unfold Provenance.anchor LoadedConfig.provenance
  rw [decide_eq_true_iff, List.mem_filter]
  refine ⟨hname, ?_⟩
  rw [h.source]
  cases loaded.containerOrigins.get? name <;> rfl

end anchors

section values

variable (h : Ported unicode loaded loaded')
    (hreject : rejectIncompatibleFields unicode configFile loaded = .ok ())

include h hreject

/-- A container is refused where it was, and for a home that its conversion makes an identity's. -/
theorem Ported.checkContainer_iff {name : String} {container : Config.Container}
    (hc : (name, container) ∈ loaded.config.containers.entries) {projectDirectory : Path}
    (hcheck : checkContainer machine unicode (loaded.provenance.anchor name projectDirectory)
      container = .ok ()) :
    checkContainer machine unicode (loaded'.provenance.anchor name projectDirectory)
      (loaded.ported unicode name container) =
        .ok () ↔
      (loaded.containerBoundaries.get? name = none →
        ∀ home, container.runAsCurrentUser = some ⟨true, some home⟩ →
        identityHomeHasAParentComponent home = true → becomesExpression unicode home = true) := by
  have hname := IndexMap.mem_keys_of_mem hc
  rw [show loaded'.provenance =
    { loaded'.provenance with suppliers := loaded'.provenance.suppliers } from rfl,
    h.anchor hname loaded'.provenance.suppliers projectDirectory]
  unfold LoadedConfig.ported
  cases hboundary : loaded.containerBoundaries.get? name with
  | none =>
      have hanchor : (loaded.provenance.anchor name projectDirectory).boundary = none := by
        unfold Provenance.anchor LoadedConfig.provenance
        rw [hboundary]
        rfl
      exact (checkContainer_ported hanchor (h.followsBatect hreject hc).identity hcheck).trans
        ⟨fun hdots _ => hdots, fun hdots => hdots rfl⟩
  | some b =>
      have hsame : { loaded.provenance.anchor name projectDirectory with batectShaped := true } =
          loaded.provenance.anchor name projectDirectory := by
        rw [← h.batect_anchor hname projectDirectory]
      rw [Option.isSome_some, hsame]
      exact iff_of_true hcheck fun hnone => nomatch hnone

/-- The values of a converted project are refused for such a home alone. -/
theorem Ported.passesValues {projectDirectory : Path}
    (hvalues : checkValues machine unicode loaded.config loaded.provenance
      projectDirectory = .ok ()) :
    checkValues machine unicode loaded'.config loaded'.provenance projectDirectory = .ok () ↔
      loaded.DotlessHomes unicode := by
  unfold checkValues at hvalues ⊢
  simp only [Except.seq_eq_ok, Except.forM_eq_ok, Except.withContext_eq_ok] at hvalues ⊢
  obtain ⟨hcontainers, htasks⟩ := hvalues
  constructor
  · rintro ⟨hported, -⟩ name container hc
    obtain ⟨e', he', rfl⟩ := h.containers.mem_left hc
    exact (h.checkContainer_iff hreject hc (hcontainers (name, container) hc)).mp (hported _ he')
  · intro hdots
    constructor
    · rintro ⟨name, container'⟩ hc
      obtain ⟨container, hc', rfl⟩ := h.container hc
      exact (h.checkContainer_iff hreject hc' (hcontainers (name, container) hc')).mpr
        (hdots name container hc')
    · rintro ⟨name, task'⟩ ht
      obtain ⟨task, ht', hsame⟩ := h.task ht
      have hcheck := htasks (name, task) ht'
      unfold checkTask at hcheck ⊢
      simp only [hsame.run, hsame.prerequisites, hsame.dependencies, hsame.mem_customised]
      exact hcheck

end values

/-! ### Inheritance -/

/-- What is resolved so far is as declared. -/
def AsDeclared (source : IndexMap String Config.Container) (resolved : ResolvedContainers) : Prop :=
  ∀ r ∈ resolved, source.get? r.name = some r.container ∧ r.suppliers = .own r.name

section plain

variable {source : IndexMap String Config.Container}
    (hplain : ∀ e ∈ source.entries, e.2.extendsName = none)

include hplain

theorem resolveContainerExtends_plain {name : String} (hname : name ∈ source.keys) {depth : ℕ}
    {resolved : ResolvedContainers} (h : AsDeclared source resolved) :
    ∃ resolved', resolveContainerExtends source depth [] resolved name = .ok resolved' ∧
      AsDeclared source resolved' := by
  unfold resolveContainerExtends
  split
  · exact ⟨resolved, rfl, h⟩
  · rw [if_neg List.not_mem_nil]
    obtain ⟨declared, hdeclared⟩ := Option.isSome_iff_exists.mp (IndexMap.get?_isSome_iff.mpr hname)
    have hextends := hplain _ (IndexMap.mem_entries_of_get? hdeclared)
    have hconsumed : declared.consumed = declared := by
      unfold Config.Container.consumed
      rw [← hextends]
    rw [hdeclared]
    simp only
    rw [hextends]
    refine ⟨_, rfl, ?_⟩
    intro r hr
    rcases List.mem_append.mp hr with hr | hr
    · exact h r hr
    · rw [List.mem_singleton.mp hr]
      exact ⟨hdeclared.trans (congrArg some hconsumed.symm), rfl⟩

theorem resolveAllExtends_plain {names : List String} (hnames : ∀ name ∈ names, name ∈ source.keys)
    {resolved : ResolvedContainers} (h : AsDeclared source resolved) :
    ∃ resolved',
      resolveAllExtends source names resolved = .ok resolved' ∧ AsDeclared source resolved' := by
  induction names generalizing resolved with
  | nil => exact ⟨resolved, rfl, h⟩
  | cons name names ih =>
      obtain ⟨next, hnext, hdeclared⟩ :=
        resolveContainerExtends_plain hplain (hnames name List.mem_cons_self) h
      obtain ⟨resolved', hrest, hdeclared'⟩ :=
        ih (fun n hn => hnames n (List.mem_cons_of_mem _ hn)) hdeclared
      exact ⟨resolved', Except.bind_eq_ok.mpr ⟨next, hnext, hrest⟩, hdeclared'⟩

/-- Where nothing is inherited every container stays as it is and supplies its own fields. -/
theorem resolveExtends_plain : ∃ resolved, resolveExtends source = .ok (source, resolved) ∧
    ∀ name, ((resolved.get? name).map (·.suppliers)).getD (.own name) = .own name := by
  obtain ⟨resolved, hresolved, hdeclared⟩ := resolveAllExtends_plain hplain (fun _ hname => hname)
    (fun r hr => absurd hr List.not_mem_nil)
  have hsame : (source.mapEntries fun name declared =>
      ((resolved.get? name).map (·.container)).getD declared) = source := by
    obtain ⟨entries, hnodup⟩ := source
    have hentries : (entries.map fun e =>
        (e.1, ((resolved.get? e.1).map (·.container)).getD e.2)) = entries := by
      refine (List.map_congr_left fun e he => ?_).trans (List.map_id entries)
      cases hget : resolved.get? e.1 with
      | none => rfl
      | some r =>
          obtain ⟨hr, hname⟩ := ResolvedContainers.get?_eq_some hget
          have hcontainer := (hdeclared r hr).1
          rw [hname, IndexMap.get?_of_mem he] at hcontainer
          exact congrArg (Prod.mk e.1) (Option.some.inj hcontainer).symm
    unfold IndexMap.mapEntries
    simp only [hentries]
  refine ⟨resolved, Except.bind_eq_ok.mpr
    ⟨resolved, hresolved, congrArg (fun m => Except.ok (m, resolved)) hsame⟩, ?_⟩
  intro name
  cases hget : resolved.get? name with
  | none => rfl
  | some r =>
      obtain ⟨hr, rfl⟩ := ResolvedContainers.get?_eq_some hget
      exact (hdeclared r hr).2

end plain

end Ratect
