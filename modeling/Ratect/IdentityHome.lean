import Ratect.HostPaths
import Ratect.Evaluation
import Ratect.Passwd

/-! # A home under a `tmpfs`

The home of a container with an `identity`: what `doctor` says of it from the configuration
(`identity_home_mount_findings`, `diagnostics.rs`), and what a run does with it in the created
container (`prepare_home`, `identity.rs`).  A `tmpfs` is mounted at start, over what was uploaded.

The mounts above a home are prefixes of one path, so of any two one is inside the other.  Both sides
come to the same: there is a `tmpfs` strictly above the home that no mount goes on top of on the way
(`Hides`).  `doctor` reads it off the deepest mount, and a run off the deepest `tmpfs`. -/

namespace Ratect

open Paths (Path)

/-! ### The deepest mount -/

/-- `max_by_key` for a key in any order: the last of those with the largest one. -/
def lastArgmax {α β : Type} [LinearOrder β] (key : α → β) (l : List α) : Option α :=
  l.reverse.argmax key

theorem lastArgmax_eq_none {α β : Type} [LinearOrder β] {key : α → β} {l : List α}
    (h : lastArgmax key l = none) : l = [] := by
  unfold lastArgmax at h
  rwa [List.argmax_eq_none, List.reverse_eq_nil_iff] at h

theorem lastArgmax_mem {α β : Type} [LinearOrder β] {key : α → β} {l : List α} {a : α}
    (h : lastArgmax key l = some a) :
    a ∈ l := List.mem_reverse.mp (List.argmax_mem h)

theorem le_lastArgmax {α β : Type} [LinearOrder β] {key : α → β} {l : List α} {a b : α}
    (h : lastArgmax key l = some a) (hb : b ∈ l) : key b ≤ key a :=
  List.le_of_mem_argmax (List.mem_reverse.mpr hb) h

/-- Where this mount lands inside the container, as written. -/
def Config.VolumeMount.containerPath : Config.VolumeMount → Text
  | host mount => mount.container
  | cache mount => mount.container
  | tmpfs mount => mount.container

def Config.VolumeMount.isTmpfs : Config.VolumeMount → Bool
  | tmpfs _ => true
  | _ => false

/-- Where it lands, cleaned. -/
def Config.VolumeMount.destination (mount : Config.VolumeMount) : Path :=
  Paths.clean (Paths.ofText mount.containerPath)

/-- `is_read_only` (`container_spec.rs`). -/
def isReadOnly (options : Option Text) : Bool :=
  options.any fun o => (o.splitOn ',').any fun flag => trim flag = ['r', 'o']

/-! ### What `doctor` says -/

/-- `Finding`. -/
inductive Finding where
  | fine (text : String)
  | warning (text : String)
  | problem (text : String)
deriving DecidableEq

/-- `WholeProjectEvaluation`. -/
structure WholeProjectEvaluation where
  evaluated : Evaluated
  failures : List String

/-- `runnable_containers`: those with an image, or something to build, by name. -/
def runnableContainers (evaluation : WholeProjectEvaluation) : List (String × Config.Container) :=
  (evaluation.evaluated.containers.filter fun e =>
    e.2.image.isSome || e.2.buildDirectory.isSome).mergeSort
    fun a b => decide (a.1 ≤ b.1)

/-- One container's round of `identity_home_mount_findings`. -/
def identityHomeMountFinding (name : String) (container : Config.Container) : Option Finding :=
  container.identity.bind fun identity =>
    let home := Paths.clean (Paths.ofText identity.home)
    let mounts := container.volumes.getD []
    if mounts.any fun mount => mount.destination = home then none
    else
      (lastArgmax (fun mount : Config.VolumeMount =>
        toLex (mount.destination.length, !mount.isTmpfs))
        (mounts.filter fun mount => Paths.startsWith home mount.destination)).bind fun above =>
      let shown := String.ofList (printable identity.home)
      let place := String.ofList (printable above.containerPath)
      let under := fun (mount consequence : String) =>
        s!"container '{name}' has identity.home '{shown}' under the {mount} at '{place}' — {consequence}"
      let readOnlyConsequence := "a run fails unless the home already exists there"
      match above with
      | .tmpfs _ =>
          some (.problem (under "tmpfs"
            "a run fails, or runs with the home hidden if the image already has it"))
      | .host mount =>
          if isReadOnly mount.options then
            some (.warning (under "read-only bind mount" readOnlyConsequence))
          else
            some (.warning (under "writable bind mount"
              "a home that doesn't exist yet is created on the host, in that directory"))
      | .cache mount =>
          if isReadOnly mount.options then
            some (.warning (under "read-only cache" readOnlyConsequence)) else none

/-- `identity_home_mount_findings`. -/
def identityHomeMountFindings (evaluation : WholeProjectEvaluation) : List Finding :=
  (runnableContainers evaluation).filterMap fun (name, container) =>
    identityHomeMountFinding name container

/-- A Problem is reported for a container. -/
def ReportsProblem (evaluation : WholeProjectEvaluation) (name : String)
    (container : Config.Container) : Prop :=
  ∃ text, identityHomeMountFinding name container = some (.problem text) ∧
    .problem text ∈ identityHomeMountFindings evaluation

/-! ### What a run does -/

/-- `ContainerPathKind`. -/
inductive ContainerPathKind where
  | directory
  | regularFile
  | symbolicLink
  | other
deriving DecidableEq

/-- `CreatedContainerFacts`: the mounts that Docker recorded, cleaned, and the `tmpfs`, as
written. -/
structure CreatedContainerFacts where
  mountDestinations : List Text
  tmpfsDestinations : List Text

/-- Why a home can't be prepared. -/
inductive HomeRefusal where
  | stat (error : String)
  | notADirectory (path : Path)
  | hidden (tmpfs : Text)
deriving DecidableEq

def HomeRefusal.message (home : Text) : HomeRefusal → String
  | stat error => error
  | notADirectory path =>
      s!"'{String.ofList (printable home)}' can't be the home: '{String.ofList (printable (Paths.toText path))}' " ++
        "is not a directory"
  | hidden tmpfs =>
      s!"'{String.ofList (printable home)}' can't be created: the tmpfs at '{String.ofList (printable tmpfs)}' " ++
        "would hide it"

/-- What `prepare_home` ends with: `hand_over_directories_made_for_mounts`, nothing, or
`create_container_directories`. -/
inductive HomeStep where
  | handOver (owner : DirectoryOwner)
  | leave
  | create (into relative : Path) (owner : DirectoryOwner)
deriving DecidableEq

/-- `stat_container_path`, which sees a path by its components. -/
abbrev Stat := Path → Except String (Option ContainerPathKind)

/-- The loop of `prepare_home`: the deepest ancestor found, with what the home itself is if it is
there. -/
def lookFor (stat : Stat) (home : Path) :
    Path → List Path → Except HomeRefusal (Path × Option ContainerPathKind)
  | into, [] => .ok (into, none)
  | into, path :: below =>
      match stat path with
      | .error e => .error (.stat e)
      | .ok none => .ok (into, none)
      | .ok (some kind) =>
          if ¬ (kind = .directory ∨ kind = .symbolicLink) then .error (.notADirectory path)
          else if path = home then .ok (path, some kind)
          else lookFor stat home path below

/-- The ancestors of an absolute path from the top down, `/` left out and the path itself last. -/
def ancestorsDown (home : Path) : List Path := home.inits.drop 2

/-- The check for a `tmpfs` above the home: it hides what is created, unless a deeper mount, or one
at the path it resolves to, is where that lands, or it is the home. -/
def checkNotHidden (homePath : Path) (facts : CreatedContainerFacts) : Except HomeRefusal Unit :=
  let deepestTmpfs := lastArgmax (fun tmpfs : Text × Path => tmpfs.2.length)
    ((facts.tmpfsDestinations.map fun tmpfs =>
      (tmpfs, Paths.clean (Paths.ofText tmpfs))).filter fun tmpfs =>
      Paths.startsWith homePath tmpfs.2)
  match deepestTmpfs with
  | none => .ok ()
  | some (tmpfs, cleaned) =>
      let hidesNothing := cleaned = homePath ∨ ∃ mount ∈ facts.mountDestinations,
        Paths.startsWith homePath (Paths.ofText mount) ∧
          Paths.startsWith (Paths.ofText mount) cleaned
      Except.ensure hidesNothing (.hidden tmpfs)

/-- `prepare_home`, for an absolute home. -/
def prepareHome (stat : Stat) (home : Text) (owner : DirectoryOwner)
    (facts : CreatedContainerFacts) :
    Except HomeRefusal HomeStep := do
  let homePath := Paths.ofText home
  match ← lookFor stat homePath [.root] (ancestorsDown homePath) with
  | (_, some .directory) => return .handOver owner
  | (_, some _) => return .leave
  | (into, none) =>
      checkNotHidden homePath facts
      return .create into (homePath.drop into.length) owner

/-! ### A `tmpfs` over the home -/

/-- A `tmpfs` strictly above the home, and no mount on the way goes on top of it. -/
structure Hides (home : Path) (mounts : List Config.VolumeMount)
    (tmpfs : Config.VolumeMount) : Prop where
  mem : tmpfs ∈ mounts
  isTmpfs : tmpfs.isTmpfs = true
  above : tmpfs.destination <+: home
  strictly : tmpfs.destination ≠ home
  deepest : ∀ mount ∈ mounts,
    mount.destination <+: home → mount.destination.length ≤ tmpfs.destination.length
  onTop : ∀ mount ∈ mounts, mount.isTmpfs = false → mount.destination <+: home →
    mount.destination.length < tmpfs.destination.length

/-- No mount is at a home that a `tmpfs` hides. -/
theorem Hides.not_at_home {home : Path} {mounts : List Config.VolumeMount}
    {tmpfs mount : Config.VolumeMount} (h : Hides home mounts tmpfs) (hmount : mount ∈ mounts) :
    mount.destination ≠ home := by
  intro hhome
  have hle := h.deepest mount hmount (hhome ▸ List.prefix_refl _)
  rw [hhome] at hle
  exact h.strictly (h.above.eq_of_length_le hle)

section doctor

variable {name : String} {container : Config.Container} {identity : Config.Identity}

theorem identityHomeMountFinding_problem (hidentity : container.identity = some identity) :
    (∃ text, identityHomeMountFinding name container = some (.problem text)) ↔
      ∃ tmpfs, Hides (Paths.clean (Paths.ofText identity.home))
        (container.volumes.getD []) tmpfs := by
  unfold identityHomeMountFinding
  rw [hidentity, Option.bind_some]
  dsimp only
  split
  · next hat =>
      obtain ⟨mount, hmount, hhome⟩ := List.any_eq_true.mp hat
      constructor
      · rintro ⟨text, h⟩
        cases h
      · rintro ⟨tmpfs, h⟩
        exact absurd (of_decide_eq_true hhome) (h.not_at_home hmount)
  · next hat =>
      have hmem : ∀ mount, mount ∈ (container.volumes.getD []).filter (fun mount =>
          Paths.startsWith (Paths.clean (Paths.ofText identity.home)) mount.destination) ↔
          mount ∈ container.volumes.getD [] ∧
            mount.destination <+: Paths.clean (Paths.ofText identity.home) := by
        intro mount
        rw [List.mem_filter, Paths.startsWith_iff]
      cases habove : lastArgmax
        (fun mount : Config.VolumeMount => toLex (mount.destination.length, !mount.isTmpfs))
          ((container.volumes.getD []).filter fun mount =>
            Paths.startsWith (Paths.clean (Paths.ofText identity.home)) mount.destination) with
      | none =>
          have hnone := lastArgmax_eq_none habove
          constructor
          · rintro ⟨text, h⟩
            cases h
          · rintro ⟨tmpfs, h⟩
            have htmpfs := (hmem tmpfs).mpr ⟨h.mem, h.above⟩
            rw [hnone] at htmpfs
            cases htmpfs
      | some above =>
          have hin := (hmem above).mp (lastArgmax_mem habove)
          have hmax : ∀ mount ∈ container.volumes.getD [],
              mount.destination <+: Paths.clean (Paths.ofText identity.home) →
              mount.destination.length < above.destination.length ∨
                mount.destination.length = above.destination.length ∧
                  (!mount.isTmpfs) ≤ (!above.isTmpfs) := by
            intro mount hmount hprefix
            exact Prod.Lex.toLex_le_toLex.mp
              (le_lastArgmax habove ((hmem mount).mpr ⟨hmount, hprefix⟩))
          rw [Option.bind_some]
          -- A mount at the depth of a `tmpfs` that hides the home is a `tmpfs` too.
          have hmount : above.isTmpfs = false → ∀ tmpfs,
              ¬ Hides (Paths.clean (Paths.ofText identity.home))
                (container.volumes.getD []) tmpfs := by
            intro hkind tmpfs h
            have hlt := h.onTop above hin.1 hkind hin.2
            rcases hmax tmpfs h.mem h.above with hbelow | ⟨heq, -⟩
            · omega
            · omega
          have htmpfs : above.isTmpfs = true →
              Hides (Paths.clean (Paths.ofText identity.home))
                (container.volumes.getD []) above := by
            intro hkind
            refine ⟨hin.1, hkind, hin.2, ?_, ?_, ?_⟩
            · intro hhome
              exact hat (List.any_eq_true.mpr ⟨above, hin.1, decide_eq_true hhome⟩)
            · intro mount hmem hprefix
              rcases hmax mount hmem hprefix with hbelow | ⟨heq, -⟩
              · omega
              · omega
            · intro mount hmem hplain hprefix
              rcases hmax mount hmem hprefix with hbelow | ⟨-, hle⟩
              · exact hbelow
              · rw [hplain, hkind] at hle
                exact absurd hle (by decide)
          cases above with
          | tmpfs mount => exact ⟨fun _ => ⟨_, htmpfs rfl⟩, fun _ => ⟨_, rfl⟩⟩
          | host mount =>
              refine iff_of_false ?_ (not_exists.mpr (hmount rfl))
              rintro ⟨text, h⟩
              dsimp only at h
              split at h
              · cases h
              · cases h
          | cache mount =>
              refine iff_of_false ?_ (not_exists.mpr (hmount rfl))
              rintro ⟨text, h⟩
              dsimp only at h
              split at h
              · cases h
              · cases h

theorem reportsProblem_iff {evaluation : WholeProjectEvaluation}
    (hcontainer : (name, container) ∈ runnableContainers evaluation)
    (hidentity : container.identity = some identity) :
    ReportsProblem evaluation name container ↔
      ∃ tmpfs, Hides (Paths.clean (Paths.ofText identity.home))
        (container.volumes.getD []) tmpfs := by
  rw [← identityHomeMountFinding_problem hidentity]
  constructor
  · rintro ⟨text, h, -⟩
    exact ⟨text, h⟩
  · rintro ⟨text, h⟩
    exact ⟨text, h, List.mem_filterMap.mpr ⟨_, hcontainer, h⟩⟩

end doctor

section run

variable {stat : Stat} {home into : Path} {paths : List Path}

/-- What the walk down to the home meets is a directory or a symbolic link, up to the first that is
not there, and Docker says so. -/
def ClearWay (stat : Stat) (paths : List Path) : Prop :=
  ∀ before path after, paths = before ++ path :: after →
    (∀ above ∈ before, ∃ kind, stat above = .ok (some kind)) →
    ∃ found, stat path = .ok found ∧ ∀ kind ∈ found, kind = .directory ∨ kind = .symbolicLink

/-- The walk past one more path. -/
theorem clearWay_cons {path : Path} : ClearWay stat (path :: paths) ↔
    stat path = .ok none ∨
      (∃ kind, stat path = .ok (some kind) ∧ (kind = .directory ∨ kind = .symbolicLink)) ∧
        ClearWay stat paths := by
  constructor
  · intro h
    obtain ⟨found, hfound, hkind⟩ := h [] path paths rfl (by simp)
    cases found with
    | none => exact Or.inl hfound
    | some kind =>
        refine Or.inr ⟨⟨kind, hfound, hkind kind rfl⟩, ?_⟩
        rintro before below after rfl hbefore
        refine h (path :: before) below after rfl ?_
        intro above habove
        rcases List.mem_cons.mp habove with rfl | habove
        · exact ⟨kind, hfound⟩
        · exact hbefore above habove
  · intro h before below after hsplit hbefore
    cases before with
    | nil =>
        cases hsplit
        rcases h with hnone | ⟨⟨kind, hfound, hkind⟩, -⟩
        · exact ⟨none, hnone, by simp⟩
        · refine ⟨some kind, hfound, ?_⟩
          rintro kind' ⟨⟩
          exact hkind
    | cons first before =>
        cases hsplit
        obtain ⟨kind, hthere⟩ := hbefore path List.mem_cons_self
        rcases h with hnone | ⟨-, hrest⟩
        · rw [hnone] at hthere
          cases hthere
        · exact hrest before below after rfl fun above habove =>
            hbefore above (List.mem_cons_of_mem _ habove)

/-- A home that is not there is not found, and the walk gets that far if the way is clear. -/
theorem lookFor_spec (hnothing : ∀ kind, stat home ≠ .ok (some kind)) :
    (ClearWay stat paths ∧ ∃ deepest, lookFor stat home into paths = .ok (deepest, none)) ∨
      ¬ ClearWay stat paths ∧ ∃ refusal, lookFor stat home into paths = .error refusal ∧
        ∀ tmpfs, refusal ≠ .hidden tmpfs := by
  induction paths generalizing into with
  | nil =>
      refine Or.inl ⟨?_, into, rfl⟩
      intro before path after hsplit
      simp at hsplit
  | cons path below ih =>
      rw [clearWay_cons, lookFor]
      cases hstat : stat path with
      | error e => exact Or.inr ⟨by simp, _, rfl, by simp⟩
      | ok found =>
          cases found with
          | none => exact Or.inl ⟨Or.inl rfl, into, rfl⟩
          | some kind =>
              dsimp only
              by_cases hkind : kind = .directory ∨ kind = .symbolicLink
              · have hne : path ≠ home := by
                  rintro rfl
                  exact hnothing kind hstat
                rw [if_neg (not_not.mpr hkind), if_neg hne]
                rcases @ih path with ⟨hclear, hfound⟩ | ⟨hblocked, hrefused⟩
                · exact Or.inl ⟨Or.inr ⟨⟨kind, rfl, hkind⟩, hclear⟩, hfound⟩
                · refine Or.inr ⟨?_, hrefused⟩
                  rintro (hnone | ⟨-, hclear⟩)
                  · cases hnone
                  · exact hblocked hclear
              · rw [if_pos hkind]
                refine Or.inr ⟨?_, _, rfl, by simp⟩
                rintro (hnone | ⟨⟨kind', hkind', hok⟩, -⟩)
                · cases hnone
                · cases hkind'
                  exact hkind hok

/-- The mounts that Docker recorded are those of the container's volumes. -/
structure CreatedContainerFacts.MountsOf (facts : CreatedContainerFacts)
    (volumes : List Config.VolumeMount) :
    Prop where
  mounts : ∀ text, text ∈ facts.mountDestinations ↔
    ∃ mount ∈ volumes, mount.isTmpfs = false ∧ text = Paths.toText mount.destination
  tmpfs : ∀ text, text ∈ facts.tmpfsDestinations ↔
    ∃ mount ∈ volumes, mount.isTmpfs = true ∧ text = mount.containerPath

theorem rooted_destination {mount : Config.VolumeMount}
    (habsolute : Paths.isAbsolute (Paths.ofText mount.containerPath) = true) :
    Paths.Rooted mount.destination :=
  (Paths.proper_ofText _).clean_rooted habsolute

theorem ensure_eq_hidden {p : Prop} [Decidable p] {text : Text} :
    (∃ tmpfs, Except.ensure p (HomeRefusal.hidden text) = .error (.hidden tmpfs)) ↔ ¬ p := by
  unfold Except.ensure
  split
  · next hp => exact iff_of_false (by simp) (not_not.mpr hp)
  · next hp => exact iff_of_true ⟨text, rfl⟩ hp

theorem checkNotHidden_hidden {facts : CreatedContainerFacts} {volumes : List Config.VolumeMount}
    (hfacts : facts.MountsOf volumes)
    (habsolute : ∀ mount ∈ volumes, Paths.isAbsolute (Paths.ofText mount.containerPath) = true) :
    (∃ tmpfs, checkNotHidden home facts = .error (.hidden tmpfs)) ↔
      ∃ tmpfs, Hides home volumes tmpfs := by
  have hlisted : ∀ pair : Text × Path, pair ∈ (facts.tmpfsDestinations.map fun tmpfs =>
      (tmpfs, Paths.clean (Paths.ofText tmpfs))).filter
        (fun tmpfs => Paths.startsWith home tmpfs.2) ↔
      ∃ mount ∈ volumes, mount.isTmpfs = true ∧ mount.destination <+: home ∧
        pair = (mount.containerPath, mount.destination) := by
    intro pair
    rw [List.mem_filter, Paths.startsWith_iff, List.mem_map]
    constructor
    · rintro ⟨⟨text, htext, rfl⟩, hprefix⟩
      obtain ⟨mount, hmount, hkind, rfl⟩ := (hfacts.tmpfs text).mp htext
      exact ⟨mount, hmount, hkind, hprefix, rfl⟩
    · rintro ⟨mount, hmount, hkind, hprefix, rfl⟩
      exact ⟨⟨_, (hfacts.tmpfs _).mpr ⟨mount, hmount, hkind, rfl⟩, rfl⟩, hprefix⟩
  have honTop : ∀ cleaned : Path, (∃ text ∈ facts.mountDestinations,
      Paths.startsWith home (Paths.ofText text) = true ∧
        Paths.startsWith (Paths.ofText text) cleaned = true) ↔
      ∃ mount ∈ volumes,
        mount.isTmpfs = false ∧ mount.destination <+: home ∧ cleaned <+: mount.destination := by
    intro cleaned
    constructor
    · rintro ⟨text, htext, hhome, hcleaned⟩
      obtain ⟨mount, hmount, hkind, rfl⟩ := (hfacts.mounts text).mp htext
      rw [Paths.ofText_toText (rooted_destination (habsolute mount hmount)),
        Paths.startsWith_iff] at hhome hcleaned
      exact ⟨mount, hmount, hkind, hhome, hcleaned⟩
    · rintro ⟨mount, hmount, hkind, hhome, hcleaned⟩
      refine ⟨_, (hfacts.mounts _).mpr ⟨mount, hmount, hkind, rfl⟩, ?_⟩
      rw [Paths.ofText_toText (rooted_destination (habsolute mount hmount)), Paths.startsWith_iff,
        Paths.startsWith_iff]
      exact ⟨hhome, hcleaned⟩
  unfold checkNotHidden
  dsimp only
  split
  · next hnone =>
      have hempty := lastArgmax_eq_none hnone
      refine iff_of_false (by simp) ?_
      rintro ⟨tmpfs, h⟩
      have hmem := (hlisted _).mpr ⟨tmpfs, h.mem, h.isTmpfs, h.above, rfl⟩
      rw [hempty] at hmem
      cases hmem
  · next text cleaned hdeepest =>
      obtain ⟨deepest, hmem, hkind, hprefix, heq⟩ := (hlisted _).mp (lastArgmax_mem hdeepest)
      cases heq
      have hmax : ∀ mount ∈ volumes, mount.isTmpfs = true → mount.destination <+: home →
          mount.destination.length ≤ deepest.destination.length := by
        intro mount hmount htmpfs habove
        have hmem := (hlisted _).mpr ⟨mount, hmount, htmpfs, habove, rfl⟩
        have hle := le_lastArgmax hdeepest hmem
        exact hle
      rw [ensure_eq_hidden, honTop, not_or]
      constructor
      · rintro ⟨hstrictly, hnoneOnTop⟩
        have honly : ∀ mount ∈ volumes, mount.isTmpfs = false → mount.destination <+: home →
            mount.destination.length < deepest.destination.length := by
          intro mount hmount hplain habove
          by_contra hle
          exact hnoneOnTop ⟨mount, hmount, hplain, habove,
            List.prefix_of_prefix_length_le hprefix habove (not_lt.mp hle)⟩
        refine ⟨deepest, hmem, hkind, hprefix, hstrictly, ?_, honly⟩
        intro mount hmount habove
        cases hplain : mount.isTmpfs with
        | true => exact hmax mount hmount hplain habove
        | false => exact (honly mount hmount hplain habove).le
      · rintro ⟨tmpfs, h⟩
        have hsame : tmpfs.destination = deepest.destination := by
          have hle := hmax tmpfs h.mem h.isTmpfs h.above
          exact (List.prefix_of_prefix_length_le h.above hprefix hle).eq_of_length_le
            (h.deepest deepest hmem hprefix)
        constructor
        · exact fun hhome => h.strictly (hsame.trans hhome)
        · rintro ⟨mount, hmount, hplain, habove, hinside⟩
          have hlt := h.onTop mount hmount hplain habove
          rw [hsame] at hlt
          exact absurd hinside.length_le (not_le.mpr hlt)

end run

/-! ### Agreement -/

/-- A home that passes its check goes from the root through names. -/
theorem rooted_of_checkIdentityHome {home : Text} (h : checkIdentityHome home = .ok ()) :
    Paths.Rooted (Paths.ofText home) := by
  unfold checkIdentityHome at h
  obtain ⟨⟨⟩, hchecked, h⟩ := Except.bind_eq_ok.mp h
  have hparent : Paths.Component.parent ∉ Paths.ofText home := by
    intro hmem
    have hcontains : identityHomeHasAParentComponent home = true := List.contains_iff_mem.mpr hmem
    rw [if_pos hcontains] at h
    cases h
  have hhead : home.head? = some '/' := by
    unfold checkHomeDirectory at hchecked
    dsimp only at hchecked
    split at hchecked
    · cases hchecked
    · next hhead => exact not_not.mp hhead
  have hform : Paths.ofText home = .root :: (home.splitOn '/').filterMap Paths.component := by
    unfold Paths.ofText Paths.lead
    rw [if_pos hhead]
    rfl
  rw [hform] at hparent ⊢
  have hnames : ∀ c ∈ (home.splitOn '/').filterMap Paths.component, ∃ name,
      Paths.Component.normal name = c := by
    intro c hc
    obtain ⟨t, -, ht⟩ := List.mem_filterMap.mp hc
    unfold Paths.component at ht
    split at ht
    · cases ht
      exact absurd (List.mem_cons_of_mem _ hc) hparent
    · split at ht
      · cases ht
        exact ⟨_, rfl⟩
      · cases ht
  have hrange : (home.splitOn '/').filterMap Paths.component ∈
      Set.range (List.map Paths.Component.normal) := by
    rw [Set.range_list_map]
    exact hnames
  obtain ⟨names, hnames⟩ := hrange
  exact ⟨names, congrArg _ hnames.symm⟩

/-- For a container that can run, with a home that passes its check and is not found, and exactly
the container's mounts: a run refuses because a `tmpfs` would hide the home if and only if `doctor`
reports a Problem and the way to the home is clear. -/
theorem doctor_agrees_with_run {evaluation : WholeProjectEvaluation} {name : String}
    {container : Config.Container}
    {identity : Config.Identity} {stat : Stat} {owner : DirectoryOwner}
    {facts : CreatedContainerFacts}
    (hcontainer : (name, container) ∈ runnableContainers evaluation)
    (hidentity : container.identity = some identity)
    (hhome : checkIdentityHome identity.home = .ok ())
    (habsolute : ∀ mount ∈ container.volumes.getD [],
      Paths.isAbsolute (Paths.ofText mount.containerPath) = true)
    (hfacts : facts.MountsOf (container.volumes.getD []))
    (hnothing : ∀ kind, stat (Paths.ofText identity.home) ≠ .ok (some kind)) :
    (∃ tmpfs, prepareHome stat identity.home owner facts = .error (.hidden tmpfs)) ↔
      ReportsProblem evaluation name container ∧
        ClearWay stat (ancestorsDown (Paths.ofText identity.home)) := by
  rw [reportsProblem_iff hcontainer hidentity, (rooted_of_checkIdentityHome hhome).clean,
    ← checkNotHidden_hidden hfacts habsolute]
  unfold prepareHome
  dsimp only
  rcases @lookFor_spec stat _ [.root] (ancestorsDown (Paths.ofText identity.home)) hnothing with
    ⟨hclear, deepest, hfound⟩ | ⟨hblocked, refusal, hrefused, hother⟩
  · rw [hfound, and_iff_left hclear]
    constructor
    · rintro ⟨tmpfs, h⟩
      cases hcheck : checkNotHidden (Paths.ofText identity.home) facts with
      | ok checked =>
          rw [hcheck] at h
          cases h
      | error refusal =>
          rw [hcheck] at h
          cases h
          exact ⟨tmpfs, rfl⟩
    · rintro ⟨tmpfs, hcheck⟩
      rw [hcheck]
      exact ⟨tmpfs, rfl⟩
  · rw [hrefused]
    refine iff_of_false ?_ fun h => hblocked h.2
    rintro ⟨tmpfs, h⟩
    cases h
    exact hother tmpfs rfl

/-- A home under a `tmpfs` at `/srv/x`. -/
def homeUnderTmpfs : Config.Container :=
  { image := some ['a']
    volumes := some [.tmpfs ⟨['/', 's', 'r', 'v', '/', '.', '/', 'x', '/'], none⟩]
    identity := some ⟨['/', 's', 'r', 'v', '/', 'x', '/', 'm', 'e'], []⟩ }

def homeUnderTmpfsEvaluation : WholeProjectEvaluation := ⟨⟨[("app", homeUnderTmpfs)], []⟩, []⟩

def homeUnderTmpfsFacts : CreatedContainerFacts :=
  ⟨[], [['/', 's', 'r', 'v', '/', '.', '/', 'x', '/']]⟩

theorem homeUnderTmpfs_runnable :
    ("app", homeUnderTmpfs) ∈ runnableContainers homeUnderTmpfsEvaluation :=
  List.mem_mergeSort.mpr List.mem_cons_self

theorem homeUnderTmpfsFacts_mountsOf :
    homeUnderTmpfsFacts.MountsOf (homeUnderTmpfs.volumes.getD []) where
  mounts text := by simp [homeUnderTmpfsFacts, homeUnderTmpfs, Config.VolumeMount.isTmpfs]
  tmpfs text := by
    simp [homeUnderTmpfsFacts, homeUnderTmpfs, Config.VolumeMount.isTmpfs,
      Config.VolumeMount.containerPath]

/-- Nothing of the way is there. -/
theorem doctor_agrees_with_run_missing :
    (∃ tmpfs, prepareHome (fun _ => .ok none)
      ['/', 's', 'r', 'v', '/', 'x', '/', 'm', 'e'] ⟨1000, 1000⟩
      homeUnderTmpfsFacts = .error (.hidden tmpfs)) ↔
      ReportsProblem homeUnderTmpfsEvaluation "app" homeUnderTmpfs ∧
        ClearWay (fun _ => .ok none)
          (ancestorsDown (Paths.ofText ['/', 's', 'r', 'v', '/', 'x', '/', 'm', 'e'])) :=
  doctor_agrees_with_run homeUnderTmpfs_runnable rfl (by decide +kernel) (by decide +kernel)
    homeUnderTmpfsFacts_mountsOf (by simp)

theorem homeUnderTmpfs_problem : ReportsProblem homeUnderTmpfsEvaluation "app" homeUnderTmpfs := by
  rw [reportsProblem_iff homeUnderTmpfs_runnable rfl]
  refine ⟨.tmpfs ⟨['/', 's', 'r', 'v', '/', '.', '/', 'x', '/'], none⟩, List.mem_cons_self,
    rfl, ?_, ?_, ?_, ?_⟩
  · decide +kernel
  · decide +kernel
  · decide +kernel
  · decide +kernel

/-- The image has a file at `/srv`, which a run refuses first. -/
theorem file_on_the_way :
    let home := ['/', 's', 'r', 'v', '/', 'x', '/', 'm', 'e']
    let stat : Stat := fun path => if path.length = 2 then .ok (some .regularFile) else .ok none
    checkIdentityHome home = .ok () ∧
      homeUnderTmpfsFacts.MountsOf (homeUnderTmpfs.volumes.getD []) ∧
      stat (Paths.ofText home) = .ok none ∧
        ReportsProblem homeUnderTmpfsEvaluation "app" homeUnderTmpfs ∧
      ∀ tmpfs, prepareHome stat home ⟨1000, 1000⟩ homeUnderTmpfsFacts ≠ .error (.hidden tmpfs) := by
  refine ⟨by decide +kernel, homeUnderTmpfsFacts_mountsOf, by decide +kernel,
    homeUnderTmpfs_problem, ?_⟩
  intro tmpfs h
  have hrefused : prepareHome
      (fun path => if path.length = 2 then .ok (some .regularFile) else .ok none)
      ['/', 's', 'r', 'v', '/', 'x', '/', 'm', 'e'] ⟨1000, 1000⟩ homeUnderTmpfsFacts =
        .error (.notADirectory (Paths.ofText ['/', 's', 'r', 'v'])) := by
    decide +kernel
  rw [hrefused] at h
  cases h

end Ratect
