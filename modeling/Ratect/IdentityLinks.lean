import Ratect.ContainerWrites
import Ratect.IdentityLayer
import Ratect.RealPaths

/-! # Links out of the layer

What an identity may touch is looked up in the texts of the destinations, and what it does touch is
where the links of a path lead.  The daemon has followed the links of each destination too
(`LaidOut`), so past no link every path and every mount is where its text says, and both come to the
same (`handOver_linked`, `create_linked`, `cache_linked`).  They come apart only where a link stands
on the way to what is touched, or to a mount over it (`Misled`), and so never in a container without
a link on the way to the home or to anything mounted (`Unlinked`). -/

namespace Ratect

open Paths (Path Name FileTree)
open Calls (Program)
open CreatedContainer (Altered)

namespace CreatedContainer

variable (container : CreatedContainer)

/-- Where something is mounted, by its destination and by its place. -/
def mountPoints : List (Text × List Name) :=
  container.mounts.map (fun mount => (mount.destination, mount.place)) ++
    container.tmpfs.map fun tmpfs => (tmpfs.destination, tmpfs.place)

/-- A link stands on the way to a path, or to a mount or `tmpfs` that is over it by its place or by
its destination. -/
def Linked (path : Path) (place : List Name) : Prop :=
  container.tree.LinkOn [] path ∨
    ∃ point ∈ container.mountPoints,
      (point.2 <+: place ∨ Paths.clean (Paths.ofText point.1) <+: path) ∧
      container.tree.LinkOn [] (Paths.ofText point.1)

variable {container} {s : CreatedContainer}

theorem mem_mountPoints {point : Text × List Name} :
    point ∈ container.mountPoints ↔
      (∃ mount ∈ container.mounts, (mount.destination, mount.place) = point) ∨
        ∃ tmpfs ∈ container.tmpfs, (tmpfs.destination, tmpfs.place) = point := by
  unfold mountPoints
  rw [List.mem_append, List.mem_map, List.mem_map]

theorem mem_destinations {text : Text} :
    text ∈ container.facts.mountDestinations ++ container.facts.tmpfsDestinations ↔
      ∃ place, (text, place) ∈ container.mountPoints := by
  unfold facts
  simp only [mem_mountPoints, List.mem_append, List.mem_map, Prod.mk.injEq]
  constructor
  · rintro (⟨mount, hmount, rfl⟩ | ⟨tmpfs, htmpfs, rfl⟩)
    · exact ⟨mount.place, .inl ⟨mount, hmount, rfl, rfl⟩⟩
    · exact ⟨tmpfs.place, .inr ⟨tmpfs, htmpfs, rfl, rfl⟩⟩
  · rintro ⟨place, ⟨mount, hmount, rfl, -⟩ | ⟨tmpfs, htmpfs, rfl, -⟩⟩
    · exact .inl ⟨mount, hmount, rfl⟩
    · exact .inr ⟨tmpfs, htmpfs, rfl⟩

/-- What a path through names leads to past no link is what it names. -/
theorem names_of_resolves {names real : List Name} (h : s.tree.Resolves [] (pathOf names) real)
    (hlink : ¬ s.tree.LinkOn [] (pathOf names)) : real = names := by
  have hclean := h.clean_eq hlink rfl (rooted_pathOf names).proper
  rw [(rooted_pathOf names).clean] at hclean
  exact (pathOf_injective hclean).symm

theorem names_of_follow {names place : List Name} (h : s.follow (pathOf names) = .ok place)
    (hlink : ¬ s.tree.LinkOn [] (pathOf names)) : place = names := by
  have hreal : s.tree.Resolves [] (s.fileSystem.locate (pathOf names)) place :=
    Paths.FileSystem.follow_resolves h
  rw [pathOf, Paths.FileSystem.locate_absolute] at hreal
  exact names_of_resolves hreal hlink

/-- So is what is found there. -/
theorem names_of_found {names place : List Name} (hnames : names ≠ [])
    (h : s.found (pathOf names) = .ok place)
    (hlink : ¬ s.tree.LinkOn [] (pathOf names)) : place = names := by
  obtain ⟨above, name, rfl⟩ := List.eq_nil_or_concat names |>.resolve_left hnames
  rw [List.concat_eq_append, pathOf_append, List.map_singleton] at h hlink
  obtain ⟨-, place', hfollow, -, rfl⟩ := entryPlace_name.mp (found_eq_ok.mp h).1
  rw [List.concat_eq_append, names_of_follow hfollow fun habove => hlink (habove.append _)]

end CreatedContainer

namespace Identity

/-- A container as the daemon lays it out.  Each mount and `tmpfs` is where the links of its
destination lead, the mounts are made from the top down and no two for one destination, a volume
shows a directory, and the writable volumes asked for are among the mounts. -/
structure LaidOut (container : CreatedContainer) (spec : ContainerSpec) : Prop where
  mounts : ∀ mount ∈ container.mounts,
    container.tree.Resolves [] (Paths.ofText mount.destination) mount.place
  tmpfs : ∀ tmpfs ∈ container.tmpfs, Paths.isAbsolute (Paths.ofText tmpfs.destination) = true ∧
    container.tree.Resolves [] (Paths.ofText tmpfs.destination) tmpfs.place
  ordered : container.mounts.Pairwise fun above below =>
    (Paths.ofText above.destination).length ≤ (Paths.ofText below.destination).length ∧
      Paths.ofText above.destination ≠ Paths.ofText below.destination
  directories : ∀ mount ∈ container.mounts, mount.kind = .namedVolume →
    container.tree.kind? mount.place = some .dir
  caches : ∀ bind ∈ spec.volumes, isWritableVolume bind = true → ∃ mount ∈ container.mounts,
    Paths.ofText mount.destination = bind.destination ∧ mount.kind = .namedVolume ∧
      mount.readOnly = false

/-- No link stands on the way to the home or to anything mounted. -/
def Unlinked (container : CreatedContainer) (home : Path) : Prop :=
  ¬ container.tree.LinkOn [] home ∧
    ∀ point ∈ container.mountPoints, ¬ container.tree.LinkOn [] (Paths.ofText point.1)

/-- A link takes a run out of the container's own layer: a directory that is handed over into a
mount, a home that is made under a `tmpfs`, or a cache's destination to something that is not the
cache's root.  It stands on the way to these, or to a mount over them. -/
inductive Misled (daemon : DaemonClass) (container : CreatedContainer) (spec : ContainerSpec)
    (identity : IdentityPlan) : Prop
  | handOver {owner : DirectoryOwner} {edited : CreatedContainer} {into directory : Path}
      {above below : List Path}
      {place : List Name} (hedited : FilesEdited daemon container identity owner edited)
      (hlook : lookFor edited.statKind (Paths.ofText identity.home) [.root]
        (ancestorsDown (Paths.ofText identity.home)) = .ok (into, some .directory))
      (howner : owner.uid ≠ 0)
      (hturn : onTheWay (Paths.ofText identity.home) container.facts = above ++ directory :: below)
      (hanswers : ∀ earlier ∈ above, Answers (handOverOffer container.facts) edited earlier)
      (htakes : Takes (handOverOffer container.facts) edited directory place)
      (hmount : edited.InAMount place)
      (hlinked : container.Linked directory place)
  | create {owner : DirectoryOwner} {edited : CreatedContainer} {into : Path} {place : List Name}
      (hedited : FilesEdited daemon container identity owner edited)
      (hlook : lookFor edited.statKind (Paths.ofText identity.home) [.root]
        (ancestorsDown (Paths.ofText identity.home)) = .ok (into, none))
      (hcheck : checkNotHidden (Paths.ofText identity.home) container.facts = .ok ())
      (hplace : edited.follow into = .ok place)
      (hhidden : edited.Hidden
        (place ++ CreatedContainer.namesOf ((Paths.ofText identity.home).drop into.length)))
      (hlinked : container.Linked (Paths.ofText identity.home)
        (place ++ CreatedContainer.namesOf ((Paths.ofText identity.home).drop into.length)))
  | cache {owner : DirectoryOwner} {edited prepared : CreatedContainer} {mount : BindMount}
      {above below : List BindMount} {place : List Name}
      (hedited : FilesEdited daemon container identity owner edited)
      (hhost : identity.hostUser.isSome)
      (hprepare : (prepareHome identity.home owner container.facts).run
        (service daemon) edited = .ok ((), prepared))
      (howner : owner.uid ≠ 0) (hturn : spec.volumes = above ++ mount :: below)
      (hanswers : ∀ earlier ∈ above, Answers cacheOffer prepared earlier)
      (htakes : Takes cacheOffer prepared mount place) (hroot : ¬ prepared.IsCacheRoot place)
      (hlinked : container.Linked mount.destination place)

section laidOut

variable {daemon : DaemonClass} {container s : CreatedContainer} {spec : ContainerSpec}
    {identity : IdentityPlan}

/-- Past no link, a mount is where its destination cleans to. -/
theorem LaidOut.clean_eq (h : LaidOut container spec) {point : Text × List Name}
    (hpoint : point ∈ container.mountPoints)
    (hlink : ¬ container.tree.LinkOn [] (Paths.ofText point.1)) :
    Paths.clean (Paths.ofText point.1) = pathOf point.2 := by
  rcases CreatedContainer.mem_mountPoints.mp hpoint with ⟨mount, hmount, rfl⟩ | ⟨tmpfs, htmpfs, rfl⟩
  · exact (h.mounts mount hmount).clean_eq hlink mount.cleaned.isAbsolute mount.cleaned.proper
  · obtain ⟨habsolute, hreal⟩ := h.tmpfs tmpfs htmpfs
    exact hreal.clean_eq hlink habsolute (Paths.proper_ofText _)

/-- A mount or `tmpfs` over something that no link stands on the way to. -/
theorem LaidOut.clean_of_over (h : LaidOut container spec) {path : Path} {place : List Name}
    (hlinked : ¬ container.Linked path place) {point : Text × List Name}
    (hpoint : point ∈ container.mountPoints)
    (hover : point.2 <+: place ∨ Paths.clean (Paths.ofText point.1) <+: path) :
    Paths.clean (Paths.ofText point.1) = pathOf point.2 :=
  h.clean_eq hpoint fun hlink => hlinked (.inr ⟨point, hpoint, hover, hlink⟩)

theorem not_linkOn_of_altered (haltered : Altered container s) {path : Path}
    (hlink : ¬ container.tree.LinkOn [] path) : ¬ s.tree.LinkOn [] path :=
  fun h => hlink (h.of_links haltered.links)

/-! ### Handing over -/

/-- What is on the way from the home to a mount is a path through names. -/
theorem OnTheWay.names {home path : Path} (h : OnTheWay home container.facts path)
    (hhome : ∃ name names, home = .root :: .normal name :: names) :
    ∃ names, names ≠ [] ∧ path = pathOf names := by
  obtain ⟨⟨rest, rfl⟩, text, htext, hmount, -⟩ := h
  obtain ⟨mount, -, rfl⟩ := List.mem_map.mp htext
  obtain ⟨names, hnames⟩ := mount.cleaned
  obtain ⟨name, below, rfl⟩ := hhome
  rw [hnames] at hmount
  obtain ⟨-, hrest⟩ := List.cons_prefix_cons.mp hmount
  obtain ⟨start, hstart, hpath⟩ := List.prefix_map_iff.mp hrest
  refine ⟨start, ?_, congrArg (List.cons _) hpath⟩
  rintro rfl
  cases hpath

/-- A directory is not handed over in a mount unless a link leads there. -/
theorem LaidOut.handOver_linked (h : LaidOut container spec) (haltered : Altered container s)
    {names place : List Name} (hnames : names ≠ [])
    (htakes : Takes (handOverOffer container.facts) s (pathOf names) place)
    (hmount : s.InAMount place) : container.Linked (pathOf names) place := by
  by_contra hlinked
  obtain ⟨path, hoffer, hfound, -⟩ := htakes
  cases handOverOffer_eq_some hoffer
  obtain rfl := CreatedContainer.names_of_found hnames hfound
    (not_linkOn_of_altered haltered fun hlink => hlinked (.inl hlink))
  have hover : ∃ point ∈ container.mountPoints, point.2 <+: place := by
    rcases hmount with ⟨mount, hmount, hover⟩ | ⟨tmpfs, htmpfs, hover⟩
    · rw [haltered.mounts] at hmount
      exact ⟨_, CreatedContainer.mem_mountPoints.mpr (.inl ⟨mount, hmount, rfl⟩), hover⟩
    · rw [haltered.tmpfs] at htmpfs
      exact ⟨_, CreatedContainer.mem_mountPoints.mpr (.inr ⟨tmpfs, htmpfs, rfl⟩), hover⟩
  obtain ⟨point, hpoint, hover⟩ := hover
  have hin : inAMount container.facts (pathOf place) = true := by
    refine List.any_eq_true.mpr
      ⟨point.1, CreatedContainer.mem_destinations.mpr ⟨point.2, hpoint⟩, ?_⟩
    rw [h.clean_of_over hlinked hpoint (.inl hover)]
    exact startsWith_pathOf.mpr hover
  unfold handOverOffer at hoffer
  rw [if_pos hin] at hoffer
  cases hoffer

/-! ### Making the home -/

theorem mem_of_lookFor {stat : Stat} {home into deepest : Path} {found : Option ContainerPathKind}
    {l : List Path} (h : lookFor stat home into l = .ok (deepest, found)) :
    deepest = into ∨ deepest ∈ l := by
  induction l generalizing into with
  | nil =>
      cases h
      exact .inl rfl
  | cons path l ih =>
      rw [lookFor] at h
      split at h
      · cases h
      · cases h
        exact .inl rfl
      · split at h
        · cases h
        · split at h
          · cases h
            exact .inr List.mem_cons_self
          · exact .inr ((ih h).elim (fun heq => heq ▸ List.mem_cons_self) (List.mem_cons_of_mem _))

/-- The deepest ancestor that is found of a home, by its names. -/
theorem names_of_lookFor {stat : Stat} {name : Name} {names : List Name} {into : Path}
    {found : Option ContainerPathKind}
    (h : lookFor stat (pathOf (name :: names)) [.root] (ancestorsDown (pathOf (name :: names))) =
      .ok (into, found)) :
    ∃ above below, name :: names = above ++ below ∧ into = pathOf above := by
  rcases mem_of_lookFor h with rfl | hmem
  · exact ⟨[], name :: names, rfl, rfl⟩
  · obtain ⟨above, below, rfl, rfl⟩ := mem_ancestorsDown.mp hmem
    exact ⟨name :: above, below, rfl, rfl⟩

theorem drop_pathOf (above below : List Name) :
    (pathOf (above ++ below)).drop (pathOf above).length = below.map .normal := by
  rw [pathOf_append, List.drop_left]

theorem namesOf_map_normal (names : List Name) :
    CreatedContainer.namesOf (names.map .normal) = names := by
  unfold CreatedContainer.namesOf
  rw [List.filterMap_map]
  exact List.filterMap_some

/-- A `tmpfs` above a home that is not said to be hidden: of the deepest one, the home is it or a
mount is on top. -/
theorem onTop_of_checkNotHidden {home : Path} {facts : CreatedContainerFacts}
    (h : checkNotHidden home facts = .ok ()) {tmpfs : Text}
    (htmpfs : tmpfs ∈ facts.tmpfsDestinations)
    (habove : Paths.clean (Paths.ofText tmpfs) <+: home) :
    ∃ deepest ∈ facts.tmpfsDestinations, Paths.clean (Paths.ofText deepest) <+: home ∧
      (Paths.clean (Paths.ofText tmpfs)).length ≤ (Paths.clean (Paths.ofText deepest)).length ∧
      (Paths.clean (Paths.ofText deepest) = home ∨ ∃ mount ∈ facts.mountDestinations,
        Paths.ofText mount <+: home ∧
          Paths.clean (Paths.ofText deepest) <+: Paths.ofText mount) := by
  have hlisted : ∀ pair : Text × Path, pair ∈ (facts.tmpfsDestinations.map fun tmpfs =>
      (tmpfs, Paths.clean (Paths.ofText tmpfs))).filter
        (fun tmpfs => Paths.startsWith home tmpfs.2) ↔
      ∃ text ∈ facts.tmpfsDestinations, Paths.clean (Paths.ofText text) <+: home ∧
        (text, Paths.clean (Paths.ofText text)) = pair := by
    intro pair
    rw [List.mem_filter, Paths.startsWith_iff, List.mem_map]
    constructor
    · rintro ⟨⟨text, htext, rfl⟩, hprefix⟩
      exact ⟨text, htext, hprefix, rfl⟩
    · rintro ⟨text, htext, hprefix, rfl⟩
      exact ⟨⟨text, htext, rfl⟩, hprefix⟩
  have hmem := (hlisted _).mpr ⟨tmpfs, htmpfs, habove, rfl⟩
  unfold checkNotHidden at h
  dsimp only at h
  split at h
  · next hnone =>
      rw [lastArgmax_eq_none hnone] at hmem
      cases hmem
  · next text cleaned hdeepest =>
      obtain ⟨deepest, hdeep, hprefix, heq⟩ := (hlisted _).mp (lastArgmax_mem hdeepest)
      cases heq
      have hle := le_lastArgmax hdeepest hmem
      refine ⟨_, hdeep, hprefix, hle, ?_⟩
      refine (Except.ensure_eq_ok.mp h).imp id ?_
      rintro ⟨mount, hmount, hhome, hcleaned⟩
      exact ⟨mount, hmount, Paths.startsWith_iff.mp hhome, Paths.startsWith_iff.mp hcleaned⟩

/-- A home that is not said to be hidden is not, unless a link leads under a `tmpfs`. -/
theorem LaidOut.create_linked (h : LaidOut container spec) (haltered : Altered container s)
    {names place : List Name} {above below : List Name} (hnames : names = above ++ below)
    (hcheck : checkNotHidden (pathOf names) container.facts = .ok ())
    (hplace : s.follow (pathOf above) = .ok place) (hhidden : s.Hidden (place ++ below)) :
    container.Linked (pathOf names) (place ++ below) := by
  by_contra hlinked
  have hway : ¬ container.tree.LinkOn [] (pathOf above) := by
    intro hlink
    refine hlinked (.inl ?_)
    rw [hnames, pathOf_append]
    exact hlink.append _
  obtain rfl := CreatedContainer.names_of_follow hplace (not_linkOn_of_altered haltered hway)
  rw [← hnames] at hhidden hlinked
  obtain ⟨tmpfs, htmpfs, hover, hstrictly, hdeepest, honTop⟩ := hhidden
  rw [haltered.tmpfs] at htmpfs hdeepest
  rw [haltered.mounts] at honTop
  have hpoint : ∀ tmpfs ∈ container.tmpfs,
      (tmpfs.destination, tmpfs.place) ∈ container.mountPoints := fun tmpfs h =>
    CreatedContainer.mem_mountPoints.mpr (.inr ⟨tmpfs, h, rfl⟩)
  have hclean : Paths.clean (Paths.ofText tmpfs.destination) = pathOf tmpfs.place :=
    h.clean_of_over hlinked (hpoint tmpfs htmpfs) (.inl hover)
  obtain ⟨text, htext, hdeep, hlength, honly⟩ := onTop_of_checkNotHidden hcheck
    (List.mem_map_of_mem htmpfs) (by
      rw [hclean]
      exact Paths.startsWith_iff.mp (startsWith_pathOf.mpr hover))
  obtain ⟨deepest, hmem, rfl⟩ := List.mem_map.mp htext
  have hcleaned : Paths.clean (Paths.ofText deepest.destination) = pathOf deepest.place :=
    h.clean_of_over hlinked (hpoint deepest hmem) (.inr hdeep)
  rw [hcleaned] at hdeep hlength honly
  rw [hclean] at hlength
  have hbelow := startsWith_pathOf.mp (Paths.startsWith_iff.mpr hdeep)
  have hle := hdeepest deepest hmem hbelow
  rcases honly with hhome | ⟨text, htext, hmounted, hon⟩
  · rw [pathOf_injective hhome] at hle
    exact hstrictly (hover.eq_of_length_le hle)
  · obtain ⟨mount, hmount, rfl⟩ := List.mem_map.mp htext
    have hmountClean : Paths.clean (Paths.ofText mount.destination) = pathOf mount.place :=
      h.clean_of_over hlinked (CreatedContainer.mem_mountPoints.mpr (.inl ⟨mount, hmount, rfl⟩))
        (.inr (by rwa [mount.cleaned.clean]))
    rw [mount.cleaned.clean] at hmountClean
    rw [hmountClean] at hmounted hon
    have hshort := honTop mount hmount (startsWith_pathOf.mp (Paths.startsWith_iff.mpr hmounted))
    have hlong := (startsWith_pathOf.mp (Paths.startsWith_iff.mpr hon)).length_le
    have hsame : tmpfs.place.length ≤ deepest.place.length := by
      simpa [pathOf] using hlength
    omega

/-! ### The caches -/

theorem getLast?_of_pairwise {α : Type} {R : α → α → Prop} {l : List α} {a last : α}
    (h : l.Pairwise R) (ha : a ∈ l) (hlast : l.getLast? = some last) : a = last ∨ R a last := by
  obtain ⟨init, rfl⟩ := List.getLast?_eq_some_iff.mp hlast
  rcases List.mem_append.mp ha with hinit | hself
  · exact .inr ((List.pairwise_append.mp h).2.2 a hinit last (List.mem_singleton_self last))
  · exact .inl (List.mem_singleton.mp hself)

/-- What is at a cache's destination is its root, unless a link leads elsewhere. -/
theorem LaidOut.cache_linked (h : LaidOut container spec) (haltered : Altered container s)
    {bind : BindMount} (hbind : bind ∈ spec.volumes) {place : List Name}
    (htakes : Takes cacheOffer s bind place) (hroot : ¬ s.IsCacheRoot place) :
    container.Linked bind.destination place := by
  by_contra hlinked
  obtain ⟨path, hoffer, hfound, -⟩ := htakes
  obtain ⟨hwritable, rfl⟩ := cacheOffer_eq_some hoffer
  obtain ⟨mount, hmount, hdestination, hkind, hwrite⟩ := h.caches bind hbind hwritable
  have hpoint : ∀ mount ∈ container.mounts,
      (mount.destination, mount.place) ∈ container.mountPoints := fun mount h =>
    CreatedContainer.mem_mountPoints.mpr (.inl ⟨mount, h, rfl⟩)
  have hclean : ∀ mount ∈ container.mounts,
      (mount.place <+: place ∨ Paths.ofText mount.destination <+: bind.destination) →
      Paths.ofText mount.destination = pathOf mount.place := by
    intro mount hmount hover
    have hclean := h.clean_of_over hlinked (hpoint mount hmount) (by
      dsimp only
      rwa [mount.cleaned.clean])
    rwa [mount.cleaned.clean] at hclean
  have hplaced := hclean mount hmount (.inr (by rw [hdestination]))
  have hpath : bind.destination = pathOf mount.place := hdestination.symm.trans hplaced
  obtain ⟨name, names, hbelow⟩ := spec.destinations bind hbind
  have hnames : mount.place ≠ [] := by
    intro hnil
    rw [hpath, hnil] at hbelow
    cases hbelow
  rw [hpath] at hfound
  obtain rfl := CreatedContainer.names_of_found hnames hfound
    (not_linkOn_of_altered haltered fun hlink => hlinked (.inl (hpath ▸ hlink)))
  refine hroot ?_
  have hself : mount ∈ container.mounts.filter fun other => other.place.isPrefixOf mount.place :=
    List.mem_filter.mpr ⟨hmount, List.isPrefixOf_iff_prefix.mpr (List.prefix_refl _)⟩
  have hover : s.mountOver mount.place =
      (container.mounts.filter fun other => other.place.isPrefixOf mount.place).getLast? := by
    unfold CreatedContainer.mountOver
    rw [haltered.mounts]
  obtain ⟨last, hlast⟩ :=
    List.getLast?_isSome.mpr (List.ne_nil_of_mem hself) |> Option.isSome_iff_exists.mp
  have hmem := List.mem_filter.mp (List.mem_of_getLast? hlast)
  have habove := List.isPrefixOf_iff_prefix.mp hmem.2
  refine ⟨last, hover.trans hlast, ?_⟩
  rcases getLast?_of_pairwise (h.ordered.filter _) hself hlast with rfl | ⟨hle, hne⟩
  · exact ⟨rfl, hkind, hwrite⟩
  · have hlastPlaced := hclean last hmem.1 (.inl habove)
    rw [hplaced, hlastPlaced] at hle hne
    refine absurd (habove.eq_of_length_le ?_).symm fun heq => hne (congrArg pathOf heq)
    simpa [pathOf] using hle

/-! ### The whole -/

theorem FilesEdited.altered {owner : DirectoryOwner} {edited : CreatedContainer}
    (h : FilesEdited daemon container identity owner edited) : Altered container edited := by
  cases h with
  | hostUser huser hpasswd hgroup hclash hwritten hedited =>
      exact (CreatedContainer.altered_writeFile hwritten).trans (altered_run hedited)
  | imageUser huser hpasswd howner hclash hgroup hwritten hedited =>
      exact (CreatedContainer.altered_writeFile hwritten).trans (altered_run hedited)

/-- What is handed over is a directory. -/
theorem dir_of_takes {facts : CreatedContainerFacts} {directory : Path} {place : List Name}
    (htakes : Takes (handOverOffer facts) s directory place) : s.tree.kind? place = some .dir := by
  obtain ⟨path, hoffer, hfound, -⟩ := htakes
  cases handOverOffer_eq_some hoffer
  unfold handOverOffer at hoffer
  split at hoffer
  · cases hoffer
  · obtain ⟨kind, hkind, hoffer⟩ := Except.map_eq_ok.mp hoffer
    rw [CreatedContainer.stat_place (CreatedContainer.found_eq_ok.mp hfound).1,
      Except.ok.injEq] at hkind
    split at hoffer
    · next hdir =>
        rw [hdir] at hkind
        exact CreatedContainer.kindAt_eq_directory.mp hkind
    · cases hoffer

/-- A cache's root is a directory. -/
theorem LaidOut.dir_of_isCacheRoot (h : LaidOut container spec) (haltered : Altered container s)
    {place : List Name} (hroot : s.IsCacheRoot place) : s.tree.kind? place = some .dir := by
  obtain ⟨mount, hover, rfl, hkind, -⟩ := hroot
  have hmount := (List.mem_filter.mp (List.mem_of_getLast? hover)).1
  rw [haltered.mounts] at hmount
  exact haltered.directories _ (h.directories mount hmount hkind)

/-- Whatever is unfit in a container that is laid out is so by a link. -/
theorem LaidOut.layerFits (h : LaidOut container spec) :
    LayerFits daemon container spec identity ↔ ¬ Misled daemon container spec identity := by
  obtain ⟨name, names, hhome⟩ := names_of_home identity
  have hpath : Paths.ofText identity.home = pathOf (name :: names) := hhome
  constructor
  · intro hfits hmisled
    cases hmisled with
    | handOver hedited hlook howner hturn hanswers htakes hmount hlinked =>
        exact ((hfits _ _ hedited).1.handOver _ hlook howner _ _ _ hturn hanswers _ htakes).2 hmount
    | create hedited hlook hcheck hplace hhidden hlinked =>
        exact (hfits _ _ hedited).1.create _ hlook hcheck _ hplace hhidden
    | cache hedited hhost hprepare howner hturn hanswers htakes hroot hlinked =>
        exact hroot ((hfits _ _ hedited).2 hhost _ hprepare howner _ _ _ hturn hanswers _ htakes).2
  · intro hmisled owner edited hedited
    refine ⟨⟨?_, ?_⟩, ?_⟩
    · intro into hlook howner above directory below hturn hanswers place htakes
      refine ⟨dir_of_takes htakes, fun hmount => hmisled ?_⟩
      have hway : OnTheWay (Paths.ofText identity.home) container.facts directory := by
        rw [← mem_onTheWay, hturn]
        simp
      obtain ⟨between, hne, rfl⟩ := hway.names ⟨name, _, hhome⟩
      exact .handOver hedited hlook howner hturn hanswers htakes hmount
        (h.handOver_linked hedited.altered hne htakes hmount)
    · intro into hlook hcheck place hplace hhidden
      refine hmisled ?_
      have hfound := hlook
      rw [hpath] at hfound
      obtain ⟨above, below, hnames, rfl⟩ := names_of_lookFor hfound
      have hrest : CreatedContainer.namesOf
          ((Paths.ofText identity.home).drop (pathOf above).length) = below := by
        rw [hpath, hnames, drop_pathOf, namesOf_map_normal]
      have hunder := hhidden
      rw [hrest] at hunder
      refine .create hedited hlook hcheck hplace hhidden ?_
      rw [hrest, hpath]
      rw [hpath] at hcheck
      exact h.create_linked hedited.altered hnames hcheck hplace hunder
    · intro hhost prepared hprepare howner above mount below hturn hanswers place htakes
      have haltered := hedited.altered.trans (altered_run hprepare)
      have hroot : prepared.IsCacheRoot place := by
        by_contra hroot
        have hbind : mount ∈ spec.volumes := by
          rw [hturn]
          simp
        exact hmisled (.cache hedited hhost hprepare howner hturn hanswers htakes hroot
          (h.cache_linked haltered hbind htakes hroot))
      exact ⟨h.dir_of_isCacheRoot haltered hroot, hroot⟩

/-- Where no link is on the way to the home or to anything mounted, none misleads. -/
theorem LaidOut.not_misled (h : LaidOut container spec)
    (hunlinked : Unlinked container (Paths.ofText identity.home)) :
    ¬ Misled daemon container spec identity := by
  obtain ⟨hhome, hpoints⟩ := hunlinked
  have hnone : ∀ path place, ¬ container.tree.LinkOn [] path → ¬ container.Linked path place := by
    rintro path place hpath (hlink | ⟨point, hpoint, -, hlink⟩)
    · exact hpath hlink
    · exact hpoints point hpoint hlink
  intro hmisled
  cases hmisled with
  | handOver hedited hlook howner hturn hanswers htakes hmount hlinked =>
      refine hnone _ _ (fun hlink => ?_) hlinked
      obtain ⟨-, text, htext, ⟨rest, hrest⟩, -⟩ :=
        mem_onTheWay.mp (hturn ▸ List.mem_append_right _ List.mem_cons_self)
      obtain ⟨place, hpoint⟩ := CreatedContainer.mem_destinations.mp (List.mem_append_left _ htext)
      exact hpoints _ hpoint (hrest ▸ hlink.append rest)
  | create hedited hlook hcheck hplace hhidden hlinked => exact hnone _ _ hhome hlinked
  | @cache owner edited prepared bind above below place hedited hhost hprepare howner hturn hanswers
      htakes hroot hlinked =>
      refine hnone _ _ (fun hlink => ?_) hlinked
      obtain ⟨path, hoffer, -⟩ := htakes
      have hbind : bind ∈ spec.volumes := by
        rw [hturn]
        simp
      obtain ⟨mount, hmount, hdestination, -⟩ := h.caches bind hbind (cacheOffer_eq_some hoffer).1
      have hpoint := CreatedContainer.mem_mountPoints.mpr (.inl ⟨mount, hmount, rfl⟩)
      exact hpoints _ hpoint (hdestination ▸ hlink)

/-- A run writes nothing unless the identity files have been checked, and whatever it makes fits. -/
def KeepsToLayer (daemon : DaemonClass) (container : CreatedContainer) (spec : ContainerSpec)
    (identity : IdentityPlan) : Prop :=
  ∀ made outcome, (apply spec).Runs (service daemon) container made outcome → ∀ e ∈ made,
    (e.1.writes = true → Checked container identity) ∧
      Fits container.facts (Paths.ofText identity.home) e.1 e.2

theorem keepsToLayer_iff (hidentity : spec.identity = some identity) :
    KeepsToLayer daemon container spec identity ↔ StaysInLayer daemon container spec identity := by
  have hchecked := Program.safe_iff.mp (safe_checked daemon container spec hidentity)
  exact ⟨fun h made outcome hrun e he => (h made outcome hrun e he).2, fun h made outcome hrun e he =>
    ⟨hchecked made outcome hrun e he, h made outcome hrun e he⟩⟩

/-- Where no link is on the way to the home or to anything mounted, each change of an owner is of a
root-owned directory between the home and a mount, outside every mount, or of a cache's root, and
the home is made only where there is nothing and where it will be seen. -/
theorem stays_in_layer_of_unlinked (daemon : DaemonClass) (container : CreatedContainer)
    (spec : ContainerSpec) (identity : IdentityPlan) (hidentity : spec.identity = some identity)
    (hlaidOut : LaidOut container spec)
    (hunlinked : Unlinked container (Paths.ofText identity.home)) :
    StaysInLayer daemon container spec identity :=
  (layerFits_iff daemon container spec identity hidentity).mpr
    (hlaidOut.layerFits.mpr (hlaidOut.not_misled hunlinked))

end laidOut

/-! ### A home with a link, and one without -/

/-- The links of `/home/me/.cache` lead into `/data`, where the daemon has put the cache. -/
theorem linkedHome_laidOut : LaidOut linkedHome cachedHomeSpec where
  mounts := by
    have hdata : linkedHome.tree.realpath 40 [] (Paths.ofText "/data".toList) =
        .ok [nameIn "data"] := by
      decide +kernel
    have hcache : linkedHome.tree.realpath 40 [] (Paths.ofText "/home/me/.cache".toList) =
        .ok [nameIn "data", nameIn "me", nameIn ".cache"] := by
      decide +kernel
    intro mount hmount
    rcases List.mem_cons.mp hmount with rfl | hmount
    · exact FileTree.realpath_resolves hdata
    · cases List.mem_singleton.mp hmount
      exact FileTree.realpath_resolves hcache
  tmpfs tmpfs htmpfs := by cases htmpfs
  ordered := by
    rw [linkedHome, List.pairwise_pair]
    decide +kernel
  directories mount hmount hkind := by
    rcases List.mem_cons.mp hmount with rfl | hmount
    · cases hkind
    · cases List.mem_singleton.mp hmount
      decide +kernel
  caches bind hbind _ := by
    cases List.mem_singleton.mp hbind
    exact ⟨_, List.mem_cons_of_mem _ List.mem_cons_self, by decide +kernel, rfl, rfl⟩

/-- A call changes the owner of what is at or inside a mount, on the way to a cache. -/
def handsOverInMount (e : Call × CreatedContainer) : Bool :=
  match e.1 with
  | .setOwnership .handOver path _ _ =>
      match e.2.found path with
      | .ok place => e.2.mounts.any fun mount => mount.place.isPrefixOf place
      | .error _ => false
  | _ => false

/-- The link takes the hand-over into the host's directory. -/
theorem linkedHome_not_stays :
    ¬ StaysInLayer .rootfulLinux linkedHome cachedHomeSpec cachedHome := by
  intro h
  have hany : ((apply cachedHomeSpec).made (service .rootfulLinux) linkedHome).any
      handsOverInMount = true := by
    decide +kernel
  obtain ⟨⟨call, container⟩, he, hmount⟩ := List.any_eq_true.mp hany
  have hfits := h _ _ (Program.runs_made _ _) _ he
  unfold handsOverInMount at hmount
  split at hmount
  · next path owner mode hcall =>
      cases hcall
      split at hmount
      · next place hfound =>
          obtain ⟨-, place', hfound', -, hfree⟩ := hfits
          rw [hfound] at hfound'
          cases hfound'
          obtain ⟨mount, hmem, hinside⟩ := List.any_eq_true.mp hmount
          exact hfree (Or.inl ⟨mount, hmem, List.isPrefixOf_iff_prefix.mp hinside⟩)
      · cases hmount
  · cases hmount

/-- Without the link, the cache is where its destination says. -/
theorem plainHome_laidOut : LaidOut plainHome cachedHomeSpec where
  mounts mount hmount := by
    have hcache : plainHome.tree.realpath 40 [] (Paths.ofText "/home/me/.cache".toList) =
        .ok [nameIn "home", nameIn "me", nameIn ".cache"] := by
      decide +kernel
    cases List.mem_singleton.mp hmount
    exact FileTree.realpath_resolves hcache
  tmpfs tmpfs htmpfs := by cases htmpfs
  ordered := List.pairwise_singleton _ _
  directories mount hmount _ := by
    cases List.mem_singleton.mp hmount
    decide +kernel
  caches bind hbind _ := by
    cases List.mem_singleton.mp hbind
    exact ⟨_, List.mem_cons_self, by decide +kernel, rfl, rfl⟩

theorem plainHome_unlinked : Unlinked plainHome (Paths.ofText cachedHome.home) := by
  refine ⟨by decide +kernel, fun point hpoint => ?_⟩
  cases List.mem_singleton.mp hpoint
  decide +kernel

theorem stays_in_layer_of_unlinked_plain :
    StaysInLayer .rootfulLinux plainHome cachedHomeSpec cachedHome :=
  stays_in_layer_of_unlinked .rootfulLinux plainHome cachedHomeSpec cachedHome rfl
    plainHome_laidOut plainHome_unlinked

end Identity

end Ratect
