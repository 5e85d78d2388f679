import Ratect.FromRoot

/-! # The container's own layer

An identity is not to reach what is mounted in the container, the host's directories in particular
(`identity.rs`).  Whatever is asked of a run is computed along the program: up to the first write
nothing happens but that the identity files are read (`safe_applyPlan`), which also says that
nothing is written unless they have been checked (`writes_only_checked`).  What the run does stays
in the layer if what it goes by is fit (`layerFits_iff`). -/

namespace Ratect

open Paths (Path Name)
open ColonFile (Bytes)
open Calls (Program)

namespace Identity

/-! ### What a call may touch -/

/-- A directory on the way from the home to a mount's destination. -/
def OnTheWay (home : Path) (facts : CreatedContainerFacts) (path : Path) : Prop :=
  home <+: path ∧ ∃ mount ∈ facts.mountDestinations, path <+: Paths.ofText mount ∧
    path ≠ Paths.ofText mount

/-- What each call may touch: an owner is changed of a root-owned directory on the way from the home
to a mount that leads into no mount and no `tmpfs`, or of a cache's root; and directories are made
where nothing is at the home, and where no `tmpfs` hides them. -/
def Fits (facts : CreatedContainerFacts) (home : Path) : Call → CreatedContainer → Prop
  | .setOwnership .handOver path _ _, container =>
      OnTheWay home facts path ∧
        ∃ place, container.found path = .ok place ∧ container.IsRoots place ∧
          ¬ container.InAMount place
  | .setOwnership .claimCaches path _ _, container =>
      ∃ place, container.found path = .ok place ∧ container.IsRoots place ∧
        container.IsCacheRoot place
  | .create into relative _, container =>
      (∀ place, container.found home ≠ .ok place) ∧
        ∀ place, container.follow into = .ok place →
          ¬ container.Hidden (place ++ CreatedContainer.namesOf relative)
  | _, _ => True

/-! ### Handing over -/

section home

variable {daemon : DaemonClass} {facts : CreatedContainerFacts} {home : Path}
    {owner : DirectoryOwner} {s s' : CreatedContainer}

theorem fits_quiet (call : Call) (s : CreatedContainer) (h : call.writes = false) :
    Fits facts home call s := by
  cases call with
  | setOwnership claimant path owner mode => cases h
  | create into relative owner => cases h
  | _ => trivial

theorem mem_dropLast_inits {α : Type} {l p : List α} : p ∈ l.inits.dropLast ↔ p <+: l ∧ p ≠ l := by
  induction l generalizing p with
  | nil => simp
  | cons a l ih =>
      have hne : (l.inits.map (a :: ·)) ≠ [] :=
        List.ne_nil_of_mem (List.mem_map_of_mem ((List.mem_inits _ _).mpr List.nil_prefix))
      rw [List.inits_cons, List.dropLast_cons_of_ne_nil hne,
        List.mem_cons, ← List.map_dropLast, List.mem_map]
      simp only [ih]
      cases p with
      | nil => simp
      | cons b p =>
          rw [List.cons_prefix_cons]
          constructor
          · rintro (h | ⟨p', ⟨hp, hne⟩, h⟩)
            · cases h
            · cases h
              exact ⟨⟨rfl, hp⟩, fun heq => hne (List.cons.inj heq).2⟩
          · rintro ⟨⟨rfl, hp⟩, hne⟩
            exact Or.inr ⟨p, ⟨hp, fun heq => hne (congrArg _ heq)⟩, rfl⟩

theorem mem_onTheWay {path : Path} : path ∈ onTheWay home facts ↔ OnTheWay home facts path := by
  unfold onTheWay OnTheWay
  rw [List.mem_insertionSort, List.mem_dedup, List.mem_filter, List.mem_flatMap,
    Paths.startsWith_iff]
  simp only [mem_dropLast_inits]
  exact and_comm

/-- What `hand_over_directories_made_for_mounts` offers to its user, in the loop. -/
def handOverOffer (facts : CreatedContainerFacts) (directory : Path)
    (container : CreatedContainer) : Except String (Option Path) :=
  if inAMount facts directory then .ok none
  else (container.statKind directory).map fun kind =>
    if kind = some .directory then some directory else none

/-- How it looks for that. -/
def handOverLook (facts : CreatedContainerFacts) (directory : Path) : Act (Option Path) :=
  if inAMount facts directory then pure none
  else do
    let stat ← statContainerPath directory
    pure (if stat.map ContainerPathStat.kind = some .directory then some directory else none)

theorem handOver_eq : handOverDirectoriesMadeForMounts home owner facts =
    if owner.uid = 0 then pure ()
    else .forEach (takeOffered .handOver owner (handOverLook facts)) (onTheWay home facts) := by
  unfold handOverDirectoriesMadeForMounts
  congr 1
  refine congrArg (fun turn => Program.forEach turn _) (funext fun directory => ?_)
  unfold takeOffered handOverLook
  split
  · rfl
  · refine congrArg (Program.call (Call.stat directory) id) (funext fun stat => ?_)
    by_cases h : stat.map ContainerPathStat.kind = some .directory
    · simp only [Program.bind, h, if_pos]
      rfl
    · simp only [Program.bind, h]
      rfl

theorem looks_handOver {Fit : Call → CreatedContainer → Prop}
    (hquiet : ∀ call s, call.writes = false → Fit call s) :
    Looks daemon Fit (handOverLook facts) (handOverOffer facts) where
  run directory s := by
    unfold handOverLook handOverOffer CreatedContainer.statKind
    split
    · rfl
    · change Program.run (service daemon)
        (Program.call (Call.stat directory) id fun stat => pure _) s = _
      rw [Program.run, service]
      cases s.stat directory <;> rfl
  safe directory s := by
    unfold handOverLook
    split
    · trivial
    · exact ⟨hquiet _ _ rfl, fun _ _ _ => trivial⟩
  own directory s place ownership := rfl

theorem handOverOffer_eq_some {directory path : Path}
    (h : handOverOffer facts directory s = .ok (some path)) : path = directory := by
  unfold handOverOffer at h
  split at h
  · cases h
  · rw [Except.map_eq_ok] at h
    obtain ⟨kind, -, h⟩ := h
    split at h
    · cases h
      rfl
    · cases h

theorem grants_handOver : Grants .handOver owner (Fits facts home) (OnTheWay home facts)
    fun container place => ¬ container.InAMount place where
  quiet := fits_quiet
  claims _ _ _ := Iff.rfl
  own _ _ _ := rfl

/-- The hand-over is safe exactly if it takes nothing that is in a mount. -/
theorem safe_handOver (hhome : ∃ name names, home = .root :: .normal name :: names) :
    (handOverDirectoriesMadeForMounts home owner facts).Safe (service daemon) (Fits facts home) s ↔
      (owner.uid ≠ 0 →
        Takeable (handOverOffer facts) (fun container place => ¬ container.InAMount place)
          (onTheWay home facts) s) := by
  rw [handOver_eq]
  split
  · next hroot => exact iff_of_true trivial fun h => absurd hroot h
  · next hroot =>
      rw [safe_takeEach (looks_handOver fits_quiet) grants_handOver hroot,
        forall_prop_of_true hroot]
      · intro directory hdirectory s path hoffer
        cases handOverOffer_eq_some hoffer
        exact mem_onTheWay.mp hdirectory
      · intro directory hdirectory s path hoffer
        cases handOverOffer_eq_some hoffer
        obtain ⟨name, names, rfl⟩ := hhome
        obtain ⟨⟨below, rfl⟩, -⟩ := mem_onTheWay.mp hdirectory
        exact ⟨rfl, by simp⟩

/-! ### The home -/

theorem run_stat_bind {β : Type} {path : Path} {f : Option ContainerPathStat → Act β} {b : β} :
    (statContainerPath path >>= f).run (service daemon) s = .ok (b, s') ↔
      ∃ stat, s.stat path = .ok stat ∧ (f stat).run (service daemon) s = .ok (b, s') := by
  have hservice : service daemon (.stat path) s = (s.stat path).map fun stat => (stat, s) := rfl
  rw [statContainerPath, Program.run_ask_bind, hservice]
  cases s.stat path with
  | error e => simp [Except.map]
  | ok stat => simp [Except.map]

/-- The loop finds what the daemon says is there. -/
theorem run_lookForHome {text : Text} {into : Path} {l : List Path}
    {found : Path × Option ContainerPathKind} :
    (lookForHome text into l).run (service daemon) s = .ok (found, s') ↔
      lookFor s.statKind (Paths.ofText text) into l = .ok found ∧ s' = s := by
  have hdone : ∀ found',
      (pure found' : Act (Path × Option ContainerPathKind)).run
        (service daemon) s = .ok (found, s') ↔
      Except.ok (ε := HomeRefusal) found' = .ok found ∧ s' = s := by
    intro found'
    simp only [pure, Program.run, Except.ok.injEq, Prod.mk.injEq]
    exact and_congr_right' eq_comm
  induction l generalizing into with
  | nil => exact hdone _
  | cons path l ih =>
      have hkind : s.statKind path = (s.stat path).map (Option.map ContainerPathStat.kind) := rfl
      rw [lookForHome, run_stat_bind, lookFor, hkind]
      cases s.stat path with
      | error e => simp [Except.map]
      | ok stat =>
          simp only [Except.ok.injEq, exists_eq_left', Except.map]
          cases stat with
          | none => exact hdone _
          | some stat =>
              simp only [Option.map_some]
              split
              · simp [Program.run]
              · split
                · exact hdone _
                · exact ih

theorem safe_lookForHome {Fit : Call → CreatedContainer → Prop}
    (hquiet : ∀ call s, call.writes = false → Fit call s) (text : Text) (into : Path)
    (l : List Path) : (lookForHome text into l).Safe (service daemon) Fit s := by
  induction l generalizing into s with
  | nil => trivial
  | cons path l ih =>
      rw [lookForHome, statContainerPath, Program.safe_ask_bind]
      refine ⟨hquiet _ _ rfl, fun stat s' _ => ?_⟩
      cases stat with
      | none => trivial
      | some stat =>
          dsimp only
          split
          · trivial
          · split
            · trivial
            · exact ih path

/-- A home is found to be missing where something on the way is. -/
theorem missing_of_lookFor {stat : Stat} {into deepest : Path} {l : List Path} (hhome : home ∈ l)
    (h : lookFor stat home into l = .ok (deepest, none)) : ∃ path ∈ l, stat path = .ok none := by
  induction l generalizing into with
  | nil => cases hhome
  | cons path l ih =>
      rw [lookFor] at h
      cases hstat : stat path with
      | error e =>
          rw [hstat] at h
          cases h
      | ok found =>
          rw [hstat] at h
          cases found with
          | none => exact ⟨path, List.mem_cons_self, hstat⟩
          | some kind =>
              dsimp only at h
              split at h
              · cases h
              · split at h
                · cases h
                · next hne =>
                    have hbelow : home ∈ l :=
                      (List.mem_cons.mp hhome).resolve_left fun heq => hne heq.symm
                    obtain ⟨missing, hmem, hmissing⟩ := ih hbelow h
                    exact ⟨missing, List.mem_cons_of_mem _ hmem, hmissing⟩

theorem mem_ancestorsDown {name : Name} {names : List Name} {path : Path} :
    path ∈ ancestorsDown (.root :: .normal name :: names.map .normal) ↔
      ∃ above below,
        names = above ++ below ∧ path = .root :: .normal name :: above.map .normal := by
  unfold ancestorsDown
  rw [List.inits_cons, List.inits_cons, List.map_cons, List.map_map]
  change path ∈ List.map _ _ ↔ _
  rw [List.mem_map]
  simp only [List.mem_inits, Function.comp_apply]
  constructor
  · rintro ⟨start, ⟨rest, hstart⟩, rfl⟩
    obtain ⟨above, below, rfl, rfl, -⟩ := List.append_eq_map_iff.mp hstart
    exact ⟨above, below, rfl, rfl⟩
  · rintro ⟨above, below, rfl, rfl⟩
    exact ⟨above.map .normal, ⟨below.map .normal, (List.map_append).symm⟩, rfl⟩

/-- Nothing is at a home that is not found. -/
theorem not_found_of_lookFor {name : Name} {names : List Name} {into deepest : Path}
    (hhome : home = .root :: .normal name :: names.map .normal)
    (h : lookFor s.statKind home into (ancestorsDown home) = .ok (deepest, none))
    (place : List Name) : s.found home ≠ .ok place := by
  rw [hhome] at h ⊢
  have hself : (.root :: .normal name :: names.map .normal : Path) ∈
      ancestorsDown (.root :: .normal name :: names.map .normal) :=
    mem_ancestorsDown.mpr ⟨names, [], (List.append_nil _).symm, rfl⟩
  obtain ⟨path, hpath, hmissing⟩ := missing_of_lookFor hself h
  obtain ⟨above, below, rfl, rfl⟩ := mem_ancestorsDown.mp hpath
  rcases List.eq_nil_or_concat above with rfl | ⟨init, last, rfl⟩
  · exact CreatedContainer.not_found_below [.root] name below rfl hmissing place
  · simp only [List.concat_eq_append, List.map_append, List.map_singleton] at hmissing ⊢
    exact CreatedContainer.not_found_below (.root :: .normal name :: init.map .normal) last
      below rfl hmissing place

/-- What applying an identity finds of the home is fit for what it does with it: of a home that is a
directory, each directory that goes to the running user; and of one that is missing, where it is to
be. -/
structure HomeFits (container : CreatedContainer) (home : Path) (owner : DirectoryOwner)
    (facts : CreatedContainerFacts) :
    Prop where
  handOver : ∀ into,
    lookFor container.statKind home [.root] (ancestorsDown home) = .ok (into, some .directory) →
    owner.uid ≠ 0 →
    Takeable (handOverOffer facts) (fun container place => ¬ container.InAMount place)
      (onTheWay home facts) container
  create : ∀ into, lookFor container.statKind home [.root] (ancestorsDown home) = .ok (into, none) →
    checkNotHidden home facts = .ok () → ∀ place, container.follow into = .ok place →
    ¬ container.Hidden (place ++ CreatedContainer.namesOf (home.drop into.length))

theorem safe_prepareHome {text : Text} {name : Name} {names : List Name}
    (hhome : Paths.ofText text = .root :: .normal name :: names.map .normal) :
    (prepareHome text owner facts).Safe (service daemon) (Fits facts (Paths.ofText text)) s ↔
      HomeFits s (Paths.ofText text) owner facts := by
  unfold prepareHome
  dsimp only
  rw [Program.safe_bind, and_iff_right (safe_lookForHome fits_quiet _ _ _)]
  simp only [run_lookForHome]
  constructor
  · intro h
    constructor
    · intro into hlook
      exact (safe_handOver ⟨name, _, hhome⟩).mp (h (into, some .directory) s ⟨hlook, rfl⟩)
    · intro into hlook hcheck place hplace
      have hcreate := h (into, none) s ⟨hlook, rfl⟩
      rw [Program.safe_bind] at hcreate
      have hfits :=
        Program.safe_ask.mp (hcreate.2 () s (Program.run_ofExcept.mpr ⟨by rw [hcheck]; rfl, rfl⟩))
      exact hfits.2 place hplace
  · rintro h ⟨into, found⟩ s' ⟨hlook, rfl⟩
    cases found with
    | none =>
        dsimp only
        rw [Program.safe_bind]
        refine ⟨Program.safe_ofExcept _ _, ?_⟩
        rintro ⟨⟩ s' hrun
        obtain ⟨hcheck, rfl⟩ := Program.run_ofExcept.mp hrun
        have hchecked : checkNotHidden (Paths.ofText text) facts = .ok () := by
          cases hresult : checkNotHidden (Paths.ofText text) facts with
          | ok checked => rfl
          | error refusal =>
              rw [hresult] at hcheck
              cases hcheck
        exact Program.safe_ask.mpr ⟨not_found_of_lookFor hhome hlook, h.create into hlook hchecked⟩
    | some kind =>
        cases kind with
        | directory => exact (safe_handOver ⟨name, _, hhome⟩).mpr (h.handOver into hlook)
        | regularFile => trivial
        | symbolicLink => trivial
        | other => trivial

/-! ### The caches -/

/-- What `claim_caches` offers to its user. -/
def cacheOffer (mount : BindMount) (_ : CreatedContainer) : Except String (Option Path) :=
  .ok (if isWritableVolume mount then some mount.destination else none)

theorem cacheOffer_eq_some {mount : BindMount} {path : Path}
    (h : cacheOffer mount s = .ok (some path)) :
    isWritableVolume mount = true ∧ path = mount.destination := by
  unfold cacheOffer at h
  rw [Except.ok.injEq] at h
  split at h
  · next hwritable => exact ⟨hwritable, (Option.some.inj h).symm⟩
  · cases h

/-- How it looks for that: the daemon is not asked. -/
def cacheLook (mount : BindMount) : Act (Option Path) :=
  pure (if isWritableVolume mount then some mount.destination else none)

theorem claimCaches_eq {volumes : List BindMount} : claimCaches volumes owner =
    if owner.uid = 0 then pure ()
    else .forEach (takeOffered .claimCaches owner cacheLook) volumes := by
  unfold claimCaches
  congr 1
  refine congrArg (fun turn => Program.forEach turn _) (funext fun mount => ?_)
  unfold takeOffered cacheLook
  cases isWritableVolume mount <;> rfl

theorem looks_claimCaches {Fit : Call → CreatedContainer → Prop} :
    Looks daemon Fit cacheLook cacheOffer where
  run _ _ := rfl
  safe _ _ := trivial
  own _ _ _ _ := rfl

theorem grants_claimCaches : Grants .claimCaches owner (Fits facts home) (fun _ => True)
    CreatedContainer.IsCacheRoot where
  quiet := fits_quiet
  claims _ _ _ := (and_iff_right trivial).symm
  own _ _ _ := rfl

/-- The caches are safe exactly if what is taken at their destinations are their roots. -/
theorem safe_claimCaches {volumes : List BindMount}
    (hvolumes : ∀ mount ∈ volumes, ∃ name names,
      mount.destination = .root :: .normal name :: names) :
    (claimCaches volumes owner).Safe (service daemon) (Fits facts home) s ↔
      (owner.uid ≠ 0 → Takeable cacheOffer CreatedContainer.IsCacheRoot volumes s) := by
  rw [claimCaches_eq]
  split
  · next hroot => exact iff_of_true trivial fun h => absurd hroot h
  · next hroot =>
      rw [safe_takeEach looks_claimCaches grants_claimCaches hroot, forall_prop_of_true hroot]
      · exact fun _ _ _ _ _ => trivial
      · intro mount hmount s path hoffer
        obtain ⟨-, hpath⟩ := cacheOffer_eq_some hoffer
        obtain ⟨name, names, hdestination⟩ := hvolumes mount hmount
        rw [hpath, hdestination]
        exact ⟨rfl, by simp⟩

end home

/-! ### The identity files -/

section files

variable (daemon : DaemonClass) (container : CreatedContainer) (identity : IdentityPlan)

/-- What `read_identity_file` lets through of a container's file. -/
def Passed (path : Path) (file : ContainerFile) : Prop :=
  (readIdentityFile container.facts path).run (service daemon) container = .ok (file, container)

/-- The users once the running user's entry is settled. -/
def settledUsers (passwd : ContainerFile) : Bytes :=
  match identity.hostUser with
  | some user => editPasswdForHostUser passwd.contents user identity.home
  | none => (editPasswdHome passwd.contents container.user identity.home).contents

/-- What an identity file is checked for, and what is read of it: the destination of no mount and no
`tmpfs` cleans to the file or to `/etc`, and the file is not there, or what stands at its path is
itself a regular file of no more than 1 MiB.  A link that stands there is none, but one above it is
followed. -/
structure ChecksOut (path : Path) (file : ContainerFile) : Prop where
  unmounted : ∀ destination ∈
    container.facts.mountDestinations ++ container.facts.tmpfsDestinations,
    Paths.clean (Paths.ofText destination) ≠ path ∧ Paths.clean (Paths.ofText destination) ≠ etcPath
  entry : container.stat path = .ok none ∧ file = ⟨[], 0o644, 0, 0⟩ ∨
    ∃ place, container.entryPlace path = .ok place ∧ container.kindAt place = some .regularFile ∧
      (container.contents place).length ≤ maxIdentityFileSize ∧
      file = ⟨container.contents place, (container.ownership place).mode,
        (container.ownership place).uid,
        (container.ownership place).gid⟩

/-- Every identity file that is to be edited has been checked, and no additional user clashes. -/
structure Checked : Prop where
  users : ∃ passwd, ChecksOut container passwdPath passwd ∧
    ∃ contents,
      withAdditionalUsers (settledUsers container identity passwd)
        identity.additionalUsers = .ok contents
  groups : identity.hostUser.isSome ∨ identity.additionalUsers ≠ [] → ∃ group,
    ChecksOut container groupPath group

variable {daemon container identity} {Fit : Call → CreatedContainer → Prop}
    {s s' : CreatedContainer}

/-- No destination is found that is in the way of an identity file. -/
theorem find?_mounted {facts : CreatedContainerFacts} {path : Path} :
    (facts.mountDestinations ++ facts.tmpfsDestinations).find? (fun destination =>
      let destination := Paths.clean (Paths.ofText destination)
      decide (destination = path ∨ destination = etcPath)) = none ↔
      ∀ destination ∈ facts.mountDestinations ++ facts.tmpfsDestinations,
        Paths.clean (Paths.ofText destination) ≠ path ∧
          Paths.clean (Paths.ofText destination) ≠ etcPath := by
  rw [List.find?_eq_none]
  simp only [decide_eq_true_eq, not_or, ne_eq]

/-- What the read lets through is what the checks say. -/
theorem passed_iff {path : Path} {file : ContainerFile} :
    Passed daemon container path file ↔ ChecksOut container path file := by
  unfold Passed readIdentityFile
  dsimp only
  split
  · next mount hmounted =>
      refine iff_of_false (fun h => by cases h) fun h => ?_
      rw [find?_mounted.mpr h.unmounted] at hmounted
      cases hmounted
  · next hmounted =>
      rw [run_stat_bind]
      constructor
      · rintro ⟨stat, hstat, hrun⟩
        refine ⟨find?_mounted.mp hmounted, ?_⟩
        cases stat with
        | none =>
            cases hrun
            exact .inl ⟨hstat, rfl⟩
        | some stat =>
            obtain ⟨place, hplace, hkind, hsize⟩ := CreatedContainer.stat_eq_some.mp hstat
            obtain ⟨kind, size⟩ := stat
            cases kind with
            | regularFile =>
                dsimp only at hrun hkind hsize
                rw [if_pos rfl] at hsize
                split at hrun
                · next hle =>
                    rw [readContainerFile, Program.run_ask, service, Except.map_eq_ok] at hrun
                    obtain ⟨file', hread, heq⟩ := hrun
                    cases heq
                    rw [CreatedContainer.readFile_regular hplace hkind] at hread
                    cases hread
                    exact .inr ⟨place, hplace, hkind, hsize ▸ hle, rfl⟩
                · cases hrun
            | directory => cases hrun
            | symbolicLink => cases hrun
            | other => cases hrun
      · rintro ⟨-, ⟨hstat, rfl⟩ | ⟨place, hplace, hkind, hle, rfl⟩⟩
        · exact ⟨none, hstat, rfl⟩
        · refine ⟨some ⟨.regularFile, (container.contents place).length⟩,
            CreatedContainer.stat_eq_some.mpr ⟨place, hplace, hkind, rfl⟩, ?_⟩
          dsimp only
          rw [if_pos hle, readContainerFile, Program.run_ask, service,
            CreatedContainer.readFile_regular hplace hkind]
          rfl

theorem safe_readIdentityFile (hquiet : ∀ call s, call.writes = false → Fit call s)
    (facts : CreatedContainerFacts) (path : Path) :
    (readIdentityFile facts path).Safe (service daemon) Fit s := by
  unfold readIdentityFile
  dsimp only
  split
  · trivial
  · rw [statContainerPath, Program.safe_ask_bind]
    refine ⟨hquiet _ _ rfl, fun stat s' _ => ?_⟩
    cases stat with
    | none => trivial
    | some stat =>
        obtain ⟨kind, size⟩ := stat
        cases kind with
        | regularFile =>
            dsimp only
            split
            · exact Program.safe_ask.mpr (hquiet _ _ rfl)
            · trivial
        | directory => trivial
        | symbolicLink => trivial
        | other => trivial

/-- Reading an identity file changes nothing. -/
theorem run_readIdentityFile {facts : CreatedContainerFacts} {path : Path} {file : ContainerFile}
    (h : (readIdentityFile facts path).run (service daemon) s = .ok (file, s')) : s' = s := by
  unfold readIdentityFile at h
  dsimp only at h
  split at h
  · cases h
  · rw [run_stat_bind] at h
    obtain ⟨stat, -, h⟩ := h
    cases stat with
    | none =>
        cases h
        rfl
    | some stat =>
        obtain ⟨kind, size⟩ := stat
        cases kind with
        | regularFile =>
            dsimp only at h
            split at h
            · rw [readContainerFile, Program.run_ask, service, Except.map_eq_ok] at h
              obtain ⟨file', -, h⟩ := h
              cases h
              rfl
            · cases h
        | directory => cases h
        | symbolicLink => cases h
        | other => cases h

theorem safe_warnOfImageUser (hquiet : ∀ call s, call.writes = false → Fit call s)
    (spec : ContainerSpec) (imageUser : Text) :
    (warnOfImageUser spec identity imageUser).Safe (service daemon) Fit s := by
  unfold warnOfImageUser
  split
  · rw [daemonClass, Program.safe_ask_bind]
    refine ⟨hquiet _ _ rfl, fun class_ s' _ => ?_⟩
    split
    · exact Program.safe_ask.mpr (hquiet _ _ rfl)
    · trivial
  · trivial

theorem run_warnOfImageUser {spec : ContainerSpec} {imageUser : Text} :
    (warnOfImageUser spec identity imageUser).run (service daemon) s = .ok ((), s) := by
  unfold warnOfImageUser
  split
  · rw [daemonClass, Program.run_ask_bind]
    refine ⟨daemon, s, rfl, ?_⟩
    split
    · rfl
    · rfl
  · rfl

/-- Whom the home is prepared for, with what is left to do once the files have been read and the
users to write are known: for a host user, or for the image's own. -/
inductive Ready (daemon : DaemonClass) (container : CreatedContainer) (spec : ContainerSpec)
    (identity : IdentityPlan) : Act Unit → Prop
  | hostUser {user : CurrentUser} {passwd group : ContainerFile} {contents : Bytes}
      (huser : identity.hostUser = some user) (hpasswd : Passed daemon container passwdPath passwd)
      (hgroup : Passed daemon container groupPath group)
      (hclash : withAdditionalUsers (editPasswdForHostUser passwd.contents user identity.home)
        identity.additionalUsers = .ok contents) :
      Ready daemon container spec identity (do
        writeContainerFile passwdPath { passwd with contents := contents }
        writeGroupIfChanged group (withAdditionalGroups
          ((editGroupForHostUser group.contents user).getD group.contents) identity.additionalUsers)
        prepareHome identity.home ⟨user.uid, user.gid⟩ container.facts
        claimCaches spec.volumes ⟨user.uid, user.gid⟩)
  | imageUser {owner : DirectoryOwner} {passwd : ContainerFile}
      {group : Option ContainerFile} {contents : Bytes}
      (huser : identity.hostUser = none) (hpasswd : Passed daemon container passwdPath passwd)
      (howner : (editPasswdHome passwd.contents container.user identity.home).homeOwner =
        some owner)
      (hclash : withAdditionalUsers
        (editPasswdHome passwd.contents container.user identity.home).contents
        identity.additionalUsers = .ok contents)
      (hgroup : (readGroupToExtend identity container.facts).run (service daemon) container =
        .ok (group, container)) :
      Ready daemon container spec identity (do
        writeContainerFile passwdPath { passwd with contents := contents }
        writeExtendedGroup identity group
        prepareHome identity.home owner container.facts)

variable {spec : ContainerSpec}

theorem safe_readGroupToExtend (hquiet : ∀ call s, call.writes = false → Fit call s)
    (facts : CreatedContainerFacts) :
    (readGroupToExtend identity facts).Safe (service daemon) Fit s := by
  unfold readGroupToExtend
  split
  · trivial
  · rw [Program.safe_bind]
    exact ⟨safe_readIdentityFile hquiet _ _, fun _ _ _ => trivial⟩

theorem run_readGroupToExtend {group : Option ContainerFile}
    (h : (readGroupToExtend identity container.facts).run
      (service daemon) container = .ok (group, s')) :
    s' = container ∧
      (identity.additionalUsers ≠ [] → ∃ file, Passed daemon container groupPath file) := by
  unfold readGroupToExtend at h
  split at h
  · next hnone =>
      cases h
      exact ⟨rfl, fun hsome => absurd hnone hsome⟩
  · obtain ⟨file, mid, hfile, h⟩ := Program.run_bind.mp h
    cases run_readIdentityFile hfile
    cases h
    exact ⟨rfl, fun _ => ⟨file, hfile⟩⟩

/-- Up to where something is written, nothing happens but that both files are read and the users are
settled. -/
theorem safe_applyPlan (hquiet : ∀ call s, call.writes = false → Fit call s) :
    (applyPlan spec identity).Safe (service daemon) Fit container ↔
      ∀ rest, Ready daemon container spec identity rest →
        rest.Safe (service daemon) Fit container := by
  unfold applyPlan createdContainerFacts
  rw [Program.safe_ask_bind, and_iff_right (hquiet _ _ rfl)]
  constructor
  · intro h rest hready
    have hread :=
      (Program.safe_bind.mp (h (container.user, container.facts) container rfl)).2 () container
      run_warnOfImageUser
    have hrest := (Program.safe_bind.mp hread).2
    cases hready with
    | @hostUser user passwd group contents huser hpasswd hgroup hclash =>
        have hadopt := hrest passwd container hpasswd
        rw [huser] at hadopt
        have hgrouped := (Program.safe_bind.mp hadopt).2 group container hgroup
        exact (Program.safe_bind.mp hgrouped).2 contents container
          (Program.run_ofExcept.mpr ⟨hclash, rfl⟩)
    | @imageUser owner passwd group contents huser hpasswd howner hclash hgroup =>
        have hkeep := hrest passwd container hpasswd
        rw [huser] at hkeep
        dsimp only [keepImageUser] at hkeep
        rw [howner] at hkeep
        have hsettled :=
          (Program.safe_bind.mp hkeep).2 contents container (Program.run_ofExcept.mpr ⟨hclash, rfl⟩)
        exact (Program.safe_bind.mp hsettled).2 group container hgroup
  · rintro h ⟨imageUser, facts⟩ s' hreply
    cases hreply
    refine Program.safe_bind.mpr ⟨safe_warnOfImageUser hquiet _ _, ?_⟩
    rintro ⟨⟩ s' hwarned
    rw [run_warnOfImageUser] at hwarned
    cases hwarned
    refine Program.safe_bind.mpr ⟨safe_readIdentityFile hquiet _ _, fun passwd s' hpasswd => ?_⟩
    cases run_readIdentityFile hpasswd
    cases huser : identity.hostUser with
    | some user =>
        refine Program.safe_bind.mpr ⟨safe_readIdentityFile hquiet _ _, fun group s' hgroup => ?_⟩
        cases run_readIdentityFile hgroup
        refine Program.safe_bind.mpr ⟨Program.safe_ofExcept _ _, fun contents s' hsettled => ?_⟩
        obtain ⟨hclash, rfl⟩ := Program.run_ofExcept.mp hsettled
        exact h _ (.hostUser huser hpasswd hgroup hclash)
    | none =>
        dsimp only [keepImageUser]
        cases howner : (editPasswdHome passwd.contents container.user identity.home).homeOwner with
        | none => trivial
        | some owner =>
            refine Program.safe_bind.mpr ⟨Program.safe_ofExcept _ _, fun contents s' hsettled => ?_⟩
            obtain ⟨hclash, rfl⟩ := Program.run_ofExcept.mp hsettled
            refine Program.safe_bind.mpr
              ⟨safe_readGroupToExtend hquiet _, fun group s' hgroup => ?_⟩
            cases (run_readGroupToExtend hgroup).1
            exact h _ (.imageUser huser hpasswd howner hclash hgroup)

theorem Ready.checked {rest : Act Unit} (h : Ready daemon container spec identity rest) :
    Checked container identity := by
  cases h with
  | @hostUser user passwd group contents huser hpasswd hgroup hclash =>
      refine ⟨⟨passwd, passed_iff.mp hpasswd, contents, ?_⟩, fun _ => ⟨group, passed_iff.mp hgroup⟩⟩
      unfold settledUsers
      rw [huser]
      exact hclash
  | @imageUser owner passwd group contents huser hpasswd howner hclash hgroup =>
      refine ⟨⟨passwd, passed_iff.mp hpasswd, contents, ?_⟩, ?_⟩
      · unfold settledUsers
        rw [huser]
        exact hclash
      · rintro (hsome | husers)
        · rw [huser] at hsome
          cases hsome
        · obtain ⟨file, hfile⟩ := (run_readGroupToExtend hgroup).2 husers
          exact ⟨file, passed_iff.mp hfile⟩

/-- Every call that writes comes after the checks. -/
theorem safe_checked (daemon : DaemonClass) (container : CreatedContainer) (spec : ContainerSpec)
    {identity : IdentityPlan} (hidentity : spec.identity = some identity) :
    (apply spec).Safe (service daemon)
      (fun call _ => call.writes = true → Checked container identity) container := by
  have hquiet : ∀ (call : Call) (s : CreatedContainer), call.writes = false →
      call.writes = true → Checked container identity := by
    intro call _ hquiet hwrites
    rw [hquiet] at hwrites
    cases hwrites
  unfold apply
  rw [hidentity]
  exact Program.safe_mapError.mpr ((safe_applyPlan hquiet).mpr fun rest hready =>
    Program.safe_of_fit (fun _ _ _ => hready.checked) rest container)

/-- In any run, whichever calls are refused, nothing at all is written to the container unless every
identity file that is to be edited has passed its checks and no additional user clashes with one
that is there. -/
theorem writes_only_checked (daemon : DaemonClass) (container : CreatedContainer)
    (spec : ContainerSpec) {identity : IdentityPlan} (hidentity : spec.identity = some identity)
    {made : List (Call × CreatedContainer)} {outcome : Except String Unit}
    (hrun : (apply spec).Runs (service daemon) container made outcome) {e : Call × CreatedContainer}
    (he : e ∈ made) (hwrites : e.1.writes = true) : Checked container identity :=
  Program.safe_iff.mp (safe_checked daemon container spec hidentity) made outcome hrun e he hwrites

/-! ### The whole -/

/-- The container once its identity files have been edited, and whom the home is prepared for. -/
inductive FilesEdited (daemon : DaemonClass) (container : CreatedContainer)
    (identity : IdentityPlan) :
    DirectoryOwner → CreatedContainer → Prop
  | hostUser {user : CurrentUser} {passwd group : ContainerFile} {contents : Bytes}
      {written edited : CreatedContainer}
      (huser : identity.hostUser = some user) (hpasswd : Passed daemon container passwdPath passwd)
      (hgroup : Passed daemon container groupPath group)
      (hclash : withAdditionalUsers (editPasswdForHostUser passwd.contents user identity.home)
        identity.additionalUsers = .ok contents)
      (hwritten : container.writeFile passwdPath { passwd with contents := contents } = .ok written)
      (hedited : (writeGroupIfChanged group (withAdditionalGroups
        ((editGroupForHostUser group.contents user).getD group.contents)
          identity.additionalUsers)).run
          (service daemon) written = .ok ((), edited)) :
      FilesEdited daemon container identity ⟨user.uid, user.gid⟩ edited
  | imageUser {owner : DirectoryOwner} {passwd : ContainerFile}
      {group : Option ContainerFile} {contents : Bytes}
      {written edited : CreatedContainer}
      (huser : identity.hostUser = none) (hpasswd : Passed daemon container passwdPath passwd)
      (howner : (editPasswdHome passwd.contents container.user identity.home).homeOwner =
        some owner)
      (hclash : withAdditionalUsers
        (editPasswdHome passwd.contents container.user identity.home).contents
        identity.additionalUsers = .ok contents)
      (hgroup : (readGroupToExtend identity container.facts).run (service daemon) container =
        .ok (group, container))
      (hwritten : container.writeFile passwdPath { passwd with contents := contents } = .ok written)
      (hedited : (writeExtendedGroup identity group).run
        (service daemon) written = .ok ((), edited)) :
      FilesEdited daemon container identity owner edited

/-- What applying an identity goes by is fit for what it does with it: the home, as it is once the
identity files are edited, and for a host user each cache, as it is once the home is prepared. -/
def LayerFits (daemon : DaemonClass) (container : CreatedContainer) (spec : ContainerSpec)
    (identity : IdentityPlan) : Prop :=
  ∀ owner edited, FilesEdited daemon container identity owner edited →
    HomeFits edited (Paths.ofText identity.home) owner container.facts ∧
      (identity.hostUser.isSome → ∀ prepared,
        (prepareHome identity.home owner container.facts).run (service daemon) edited =
          .ok ((), prepared) →
          owner.uid ≠ 0 → Takeable cacheOffer CreatedContainer.IsCacheRoot spec.volumes prepared)

/-- A home that passes its check goes from the root through at least one name. -/
theorem names_of_home (identity : IdentityPlan) :
    ∃ (name : Name) (names : List Name),
      Paths.ofText identity.home = .root :: .normal name :: names.map .normal := by
  obtain ⟨names, hnames⟩ := rooted_of_checkIdentityHome identity.checked
  cases names with
  | cons name names => exact ⟨name, names, hnames⟩
  | nil =>
      have hchecked := identity.checked
      unfold checkIdentityHome at hchecked
      obtain ⟨⟨⟩, hhome, -⟩ := Except.bind_eq_ok.mp hchecked
      unfold checkHomeDirectory at hhome
      dsimp only at hhome
      split at hhome
      · cases hhome
      · split at hhome
        · cases hhome
        · rw [hnames] at hhome
          cases hhome

theorem safe_write_bind {facts : CreatedContainerFacts} {home path : Path} {file : ContainerFile}
    {rest : Unit → Act Unit} :
    (writeContainerFile path file >>= rest).Safe (service daemon) (Fits facts home) s ↔
      ∀ written, s.writeFile path file = .ok written →
        (rest ()).Safe (service daemon) (Fits facts home) written := by
  have hservice : service daemon (.write path file) s = (s.writeFile path file).map fun s =>
      ((), s) := rfl
  rw [writeContainerFile, Program.safe_ask_bind, hservice]
  refine (and_iff_right trivial).trans ?_
  constructor
  · intro h written hwritten
    refine h () written ?_
    rw [hwritten]
    rfl
  · rintro h ⟨⟩ s' hwritten
    obtain ⟨written, hwritten, hsame⟩ := Except.map_eq_ok.mp hwritten
    cases hsame
    exact h _ hwritten

theorem safe_writeGroupIfChanged {facts : CreatedContainerFacts} {home : Path}
    (group : ContainerFile) (contents : Bytes) :
    (writeGroupIfChanged group contents).Safe (service daemon) (Fits facts home) s := by
  unfold writeGroupIfChanged
  split
  · trivial
  · exact Program.safe_ask.mpr trivial

theorem safe_writeExtendedGroup {facts : CreatedContainerFacts} {home : Path}
    (group : Option ContainerFile) :
    (writeExtendedGroup identity group).Safe (service daemon) (Fits facts home) s := by
  cases group with
  | none => trivial
  | some group => exact safe_writeGroupIfChanged group _

/-- Whatever is made in a run fits, whichever calls are refused. -/
def StaysInLayer (daemon : DaemonClass) (container : CreatedContainer) (spec : ContainerSpec)
    (identity : IdentityPlan) : Prop :=
  ∀ made outcome, (apply spec).Runs (service daemon) container made outcome →
    ∀ e ∈ made, Fits container.facts (Paths.ofText identity.home) e.1 e.2

/-- What each run does stays in the layer, whichever calls are refused, if what it goes by is fit in
the one where none is. -/
theorem layerFits_iff (daemon : DaemonClass) (container : CreatedContainer) (spec : ContainerSpec)
    (identity : IdentityPlan) (hidentity : spec.identity = some identity) :
    StaysInLayer daemon container spec identity ↔ LayerFits daemon container spec identity := by
  unfold StaysInLayer
  obtain ⟨name, names, hhome⟩ := names_of_home identity
  have happly : apply spec = (applyPlan spec identity).mapError fun e =>
      s!"Failed to apply 'identity' to container '{spec.name}': {e}" := by
    unfold apply
    rw [hidentity]
  rw [happly, ← Program.safe_iff, Program.safe_mapError, safe_applyPlan fits_quiet]
  constructor
  · intro h owner edited hedited
    cases hedited with
    | @hostUser user passwd group contents written edited huser hpasswd hgroup
        hclash hwritten hedited =>
        have hrest :=
          safe_write_bind.mp (h _ (.hostUser huser hpasswd hgroup hclash)) written hwritten
        have hprepared := Program.safe_bind.mp ((Program.safe_bind.mp hrest).2 () edited hedited)
        refine ⟨(safe_prepareHome hhome).mp hprepared.1, fun _ prepared hprepare => ?_⟩
        exact (safe_claimCaches spec.destinations).mp (hprepared.2 () prepared hprepare)
    | @imageUser owner passwd group contents written edited huser hpasswd howner hclash
        hgroup hwritten hedited =>
        have hrest :=
          safe_write_bind.mp (h _ (.imageUser huser hpasswd howner hclash hgroup)) written hwritten
        refine ⟨(safe_prepareHome hhome).mp ((Program.safe_bind.mp hrest).2 () edited hedited),
          fun hsome => ?_⟩
        rw [huser] at hsome
        cases hsome
  · intro h rest hready
    cases hready with
    | @hostUser user passwd group contents huser hpasswd hgroup hclash =>
        refine safe_write_bind.mpr fun written hwritten => ?_
        refine Program.safe_bind.mpr ⟨safe_writeGroupIfChanged _ _, ?_⟩
        rintro ⟨⟩ edited hedited
        obtain ⟨hfits, hcaches⟩ :=
          h _ edited (.hostUser huser hpasswd hgroup hclash hwritten hedited)
        refine Program.safe_bind.mpr ⟨(safe_prepareHome hhome).mpr hfits, ?_⟩
        rintro ⟨⟩ prepared hprepare
        exact (safe_claimCaches spec.destinations).mpr
          (hcaches (by rw [huser]; rfl) prepared hprepare)
    | @imageUser owner passwd group contents huser hpasswd howner hclash hgroup =>
        refine safe_write_bind.mpr fun written hwritten => ?_
        refine Program.safe_bind.mpr ⟨safe_writeExtendedGroup _, ?_⟩
        rintro ⟨⟩ edited hedited
        exact (safe_prepareHome hhome).mpr
          (h owner edited (.imageUser huser hpasswd howner hclash hgroup hwritten hedited)).1

end files

/-! ### A home with a link, and one without -/

def nameIn (text : String) (h : Paths.IsName text.toList := by decide) : Name := ⟨text.toList, h⟩

/-- The host user's home in a container, and a cache below it. -/
def cachedHome : IdentityPlan where
  home := "/home/me".toList
  hostUser := some ⟨1000, 1000, "me".toList, "me".toList⟩
  additionalUsers := []
  checked := by decide +kernel

def cachedHomeSpec : ContainerSpec where
  name := "app"
  identity := some cachedHome
  volumes := [⟨.volume "cache".toList, "/home/me/.cache".toList, none⟩]
  destinations := by
    intro bind hbind
    cases List.mem_singleton.mp hbind
    exact ⟨nameIn "home", [.normal (nameIn "me"), .normal (nameIn ".cache")], by decide +kernel⟩

/-- A container in which `/home` is a link to `/data`, a directory of the host's, where the daemon
made the directory for the cache. -/
def linkedHome : CreatedContainer where
  user := []
  mounts :=
    [⟨"/data".toList, [nameIn "data"], .bind, false, ⟨[nameIn "data"], by decide +kernel⟩⟩,
      ⟨"/home/me/.cache".toList, [nameIn "data", nameIn "me", nameIn ".cache"], .namedVolume, false,
        ⟨[nameIn "home", nameIn "me", nameIn ".cache"], by decide +kernel⟩⟩]
  tmpfs := []
  links := 40
  tree := ⟨[(nameIn "etc", .dir [(nameIn "passwd", .file), (nameIn "group", .file)]),
    (nameIn "home", .symlink [.root, .normal (nameIn "data")]),
    (nameIn "data", .dir [(nameIn "me", .dir [(nameIn ".cache", .dir [])])])]⟩
  special _ := false
  contents place :=
    if place = [nameIn "etc", nameIn "passwd"] then
      ColonFile.utf8 "root:x:0:0:root:/root:/bin/sh\n".toList
    else if place = [nameIn "etc", nameIn "group"] then ColonFile.utf8 "root:x:0:\n".toList
    else []
  ownership _ := ⟨0, 0, 0o755⟩

/-- A container with the cache in its own `/home/me`. -/
def plainHome : CreatedContainer :=
  { linkedHome with
    mounts :=
      [⟨"/home/me/.cache".toList, [nameIn "home", nameIn "me", nameIn ".cache"], .namedVolume,
        false, ⟨[nameIn "home", nameIn "me", nameIn ".cache"], by decide +kernel⟩⟩]
    tree := ⟨[(nameIn "etc", .dir [(nameIn "passwd", .file), (nameIn "group", .file)]),
      (nameIn "home", .dir [(nameIn "me", .dir [(nameIn ".cache", .dir [])])])]⟩ }

/-- The calls that write to the linked home have been checked for. -/
theorem writes_only_checked_linked : Checked linkedHome cachedHome := by
  have hwrites : ((apply cachedHomeSpec).made (service .rootfulLinux) linkedHome).any
      (fun e => e.1.writes) = true := by decide +kernel
  obtain ⟨e, he, hwrites⟩ := List.any_eq_true.mp hwrites
  exact writes_only_checked .rootfulLinux linkedHome cachedHomeSpec rfl
    (Program.runs_made _ _) he hwrites

end Identity

end Ratect
