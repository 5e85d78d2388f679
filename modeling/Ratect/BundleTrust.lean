import Ratect.IncludeGraph

/-! # Bundles are confined, and no grant is lost

What a load that succeeds guarantees of the boundaries it gave out.  A bundle's files stay inside
its checkout, only an entry of an owned file grants anything, and in the native format a bundle
follows Git includes of its own only with that permission, reaching bundles that are granted nothing
(`bundles_confined`).

The first entry to reach a file decides what it is loaded under, and every later one is compared
with that, so a bounded file has the most that any route to it carries
(`LoadedTree.greatest_trust`).  Two orders of the root's entries give a file the same trust wherever
they agree on which of the files that lead to it are owned (`Reordered.trust_eq`). -/

namespace Ratect

open Paths (Path)

section trust

variable {machine : Machine} {format : ConfigFormat} {root : LoadedFile} {files : List LoadedFile}

/-! ### What a boundary says -/

theorem checkContains_ok {boundary : Boundary} {resolved : Path}
    (h : boundary.checkContains resolved = .ok ()) :
    Paths.startsWith (Paths.clean resolved) boundary.repoDir = true := by
  unfold Boundary.checkContains at h
  split at h
  · assumption
  · cases h

theorem Followed.inside {declaring resolved : Path} {boundary : Option Boundary}
    {entry : IncludeEntry} (h : Followed machine format declaring boundary entry resolved)
    {b : Boundary} (hb : carriedBoundary machine boundary entry = some b) :
    Paths.startsWith (Paths.clean resolved) b.repoDir = true := by
  have hcontained := h.contained
  rw [hb] at hcontained
  obtain ⟨_, hlexical, -⟩ := Except.bind_eq_ok.mp hcontained
  exact checkContains_ok hlexical

/-- A grant is one that an owned file wrote. -/
theorem granted_trust (declaring : Option Bundle) (id : BundleId) (asked : Grants) :
    (Bundle.granted declaring id asked).trust =
      if declaring.isNone then ⟨asked.hostPaths, asked.nestedGit.getD false⟩ else .NONE := by
  unfold Bundle.granted Trust.NONE
  cases declaring <;> simp

/-- What a Git include in a bundle reaches is granted nothing. -/
theorem carried_in_bundle {b reached : Boundary} {entry : IncludeEntry}
    (hgit : entry.remote.isSome = true)
    (h : carriedBoundary machine (some b) entry = some reached) : reached.bundle.trust = .NONE := by
  cases entry with
  | file path => cases hgit
  | git repo gitRef path hostPaths nestedGit reviewed =>
      obtain ⟨dir, -, rfl⟩ := carriedBoundary_git.mp h
      rw [granted_trust]
      rfl

/-- What a Git include carries depends on no more of its declaring file than whether that is
owned. -/
theorem carried_git {boundary boundary' : Option Boundary} {entry : IncludeEntry} {b : Boundary}
    (hgit : entry.remote.isSome = true) (howned : boundary = none ↔ boundary' = none)
    (h : carriedBoundary machine boundary entry = some b) :
    ∃ b', carriedBoundary machine boundary' entry = some b' ∧ b'.bundle.trust = b.bundle.trust := by
  cases entry with
  | file path => cases hgit
  | git repo gitRef path hostPaths nestedGit reviewed =>
      obtain ⟨dir, hdir, rfl⟩ := carriedBoundary_git.mp h
      refine ⟨_, carriedBoundary_git.mpr ⟨dir, hdir, rfl⟩, ?_⟩
      rw [granted_trust, granted_trust, Option.isNone_map, Option.isNone_map]
      cases boundary <;> cases boundary' <;> simp_all

/-- A Git include that is followed has a clone to look in. -/
theorem Followed.carried {declaring resolved : Path} {boundary : Option Boundary}
    {entry : IncludeEntry} (h : Followed machine format declaring boundary entry resolved)
    (hgit : entry.remote.isSome = true) : ∃ b, carriedBoundary machine boundary entry = some b := by
  cases entry with
  | file path => cases hgit
  | git repo gitRef path hostPaths nestedGit reviewed =>
      obtain ⟨dir, hdir, -⟩ := entryTarget_git.mp h.target
      exact ⟨_, carriedBoundary_git.mpr ⟨dir, hdir, rfl⟩⟩

/-- In the native format a bundle's Git include needs the permission. -/
theorem Followed.nestedGit {declaring resolved : Path} {b : Boundary} {entry : IncludeEntry}
    (h : Followed machine .native declaring (some b) entry resolved)
    (hgit : entry.remote.isSome = true) : b.bundle.trust.nestedGit = true := by
  cases entry with
  | file path => cases hgit
  | git repo gitRef path hostPaths nestedGit reviewed =>
      have hpermitted : checkMayDeclareGit (restricting (some b.bundle) .native) repo = .ok () :=
        h.permitted
      by_contra hrefused
      rw [Bool.not_eq_true] at hrefused
      unfold checkMayDeclareGit refusingNestedGit restricting at hpermitted
      rw [Option.filter_some, hrefused] at hpermitted
      cases hpermitted

namespace LoadedTree

/-- A bundle's file lies inside the checkout. -/
theorem inside (h : LoadedTree machine format root files) {f : LoadedFile} (hf : f ∈ files)
    {b : Boundary} (hb : f.boundary = some b) :
    Paths.startsWith (Paths.clean f.path) b.repoDir = true := by
  rcases h.arrival hf with rfl | ⟨d, _, entry, _, hfollowed, hboundary, -⟩
  · rw [h.owned] at hb
    cases hb
  · exact hfollowed.inside (hboundary.symm.trans hb)

/-- A boundary was made by a Git include, declared in an owned file if it grants anything. -/
theorem made_by (h : LoadedTree machine format root files) : ∀ f ∈ files, ∀ b, f.boundary = some b →
    ∃ d ∈ files, ∃ entry ∈ d.file.includes, entry.remote.isSome = true ∧
      carriedBoundary machine d.boundary entry = some b := by
  refine h.induction ?_ ?_
  · intro b hb
    rw [h.owned] at hb
    cases hb
  · intro d hd f _ entry hentry _ hboundary ih b hb
    rw [hboundary] at hb
    cases entry with
    | file path => exact ih b hb
    | git repo gitRef path hostPaths nestedGit reviewed => exact ⟨d, hd, _, hentry, rfl, hb⟩

theorem granted_by_owner (h : LoadedTree machine format root files) {f : LoadedFile}
    (hf : f ∈ files) {b : Boundary} (hb : f.boundary = some b)
    (htrust : b.bundle.trust.hostPaths = true ∨ b.bundle.trust.nestedGit = true) :
    ∃ d ∈ files, d.boundary = none ∧ ∃ entry ∈ d.file.includes, entry.remote.isSome = true ∧
      carriedBoundary machine none entry = some b := by
  obtain ⟨d, hd, entry, hentry, hgit, hmade⟩ := h.made_by f hf b hb
  cases hd' : d.boundary with
  | none => exact ⟨d, hd, hd', entry, hentry, hgit, hd' ▸ hmade⟩
  | some inner =>
      rw [hd'] at hmade
      rw [carried_in_bundle hgit hmade] at htrust
      rcases htrust with htrust | htrust <;> cases htrust

/-! ### What the routes to a file carry -/

end LoadedTree

/-- The trust that entries of loaded files carry to a file. -/
def RouteTrust (machine : Machine) (format : ConfigFormat) (files : List LoadedFile) (q : Path) :
    Set Trust :=
  fun trust => ∃ d ∈ files, ∃ entry ∈ d.file.includes,
    entryTarget machine format d.path entry = some q ∧
    ∃ b, carriedBoundary machine d.boundary entry = some b ∧ b.bundle.trust = trust

namespace LoadedTree

/-- Whatever trust reaches a file, the file lost none of it. -/
theorem keeps (h : LoadedTree machine format root files) {d : LoadedFile} (hd : d ∈ files)
    {entry : IncludeEntry} (hentry : entry ∈ d.file.includes) {f : LoadedFile} (hf : f ∈ files)
    (htarget : entryTarget machine format d.path entry = some f.path) :
    f.Keeps (carriedBoundary machine d.boundary entry) := by
  obtain ⟨g, hg, hfollowed, hkeeps⟩ := h.delivered d hd entry hentry
  have hpath : g.path = f.path := Option.some.inj (hfollowed.target.symm.trans htarget)
  rw [← h.path_unique hg hf hpath]
  exact hkeeps

/-- A bounded file has the most that any route to it carries. -/
theorem greatest_trust (h : LoadedTree machine format root files) {f : LoadedFile} (hf : f ∈ files)
    {b : Boundary} (hb : f.boundary = some b) :
    IsGreatest (RouteTrust machine format files f.path) b.bundle.trust := by
  constructor
  · rcases h.arrival hf with rfl | ⟨d, hd, entry, hentry, hfollowed, hboundary, -⟩
    · rw [h.owned] at hb
      cases hb
    · exact ⟨d, hd, entry, hentry, hfollowed.target, b, hboundary.symm.trans hb, rfl⟩
  · rintro _ ⟨d, hd, entry, hentry, htarget, carried, hcarried, rfl⟩
    rcases h.keeps hd hentry hf htarget carried hcarried with hnone | ⟨own, hown, hle⟩
    · rw [hb] at hnone
      cases hnone
    · rw [hb, Option.some.injEq] at hown
      rw [hown]
      exact hle

end LoadedTree

/-! ### Two orders of the root's includes -/

/-- The root file with its includes in another order. -/
def LoadedFile.withIncludes (root : LoadedFile) (order : List IncludeEntry) : LoadedFile :=
  { root with file := { root.file with includes := order } }

/-- The trust a file is loaded under; none at all for an owned one. -/
def LoadedFile.trust (f : LoadedFile) : Option Trust := f.boundary.map fun b => b.bundle.trust

/-- Two loads agree on which of the files that lead to `q` are owned. -/
def SameOwned (machine : Machine) (format : ConfigFormat) (root : LoadedFile)
    (files files' : List LoadedFile) (q : Path) : Prop :=
  ∀ d ∈ files, ∀ d' ∈ files', d'.path = d.path → IncludeReaches machine format root d.path q →
    (d.boundary = none ↔ d'.boundary = none)

section orders

variable {root' : LoadedFile} {files' : List LoadedFile}

/-- The two roots are one file whose entries stand in different orders. -/
structure Reordered (root root' : LoadedFile) : Prop where
  path : root'.path = root.path
  entries : ∀ entry, entry ∈ root'.file.includes ↔ entry ∈ root.file.includes

theorem Reordered.symm (h : Reordered root root') : Reordered root' root :=
  ⟨h.path.symm, fun entry => (h.entries entry).symm⟩

/-- The same file has the same entries in both loads. -/
theorem Reordered.includes (hroots : Reordered root root')
    (h : LoadedTree machine format root files) (h' : LoadedTree machine format root' files')
    {d d' : LoadedFile} (hd : d ∈ files) (hd' : d' ∈ files') (hpath : d'.path = d.path)
    {entry : IncludeEntry} (hentry : entry ∈ d.file.includes) : entry ∈ d'.file.includes := by
  have hc := h.contents hd
  have hc' := h'.contents hd'
  unfold contentsAt at hc hc'
  rw [hpath, hroots.path] at hc'
  split at hc
  · next hroot =>
      rw [if_pos hroot, Option.some.injEq] at hc'
      rw [Option.some.injEq] at hc
      rw [← hc', hroots.entries, hc]
      exact hentry
  · next hroot =>
      rw [if_neg hroot, hc, Option.some.injEq] at hc'
      rw [← hc']
      exact hentry

theorem Reordered.edge (hroots : Reordered root root') {p q : Path}
    (h : IncludeEdge machine format root p q) : IncludeEdge machine format root' p q := by
  obtain ⟨file, hfile, entry, hentry, htarget⟩ := h
  unfold contentsAt at hfile
  split at hfile
  · next hroot =>
      refine ⟨root'.file, ?_, entry, ?_, htarget⟩
      · unfold contentsAt
        rw [if_pos (hroot.trans hroots.path.symm)]
      · rw [hroots.entries, Option.some.inj hfile]
        exact hentry
  · next hroot =>
      refine ⟨file, ?_, entry, hentry, htarget⟩
      unfold contentsAt
      rw [hroots.path, if_neg hroot]
      exact hfile

theorem Reordered.reaches (hroots : Reordered root root') {p q : Path}
    (h : IncludeReaches machine format root p q) : IncludeReaches machine format root' p q :=
  Relation.ReflTransGen.mono (fun _ _ => hroots.edge) p q h

/-- Both loads load the same files. -/
theorem Reordered.mem (hroots : Reordered root root') (h : LoadedTree machine format root files)
    (h' : LoadedTree machine format root' files') {f : LoadedFile} (hf : f ∈ files) :
    ∃ f' ∈ files', f'.path = f.path := by
  have hmem : f.path ∈ files'.map LoadedFile.path := by
    rw [h'.mem_iff_reaches, hroots.path]
    exact hroots.reaches (h.reaches f hf)
  obtain ⟨f', hf', hpath⟩ := List.mem_map.mp hmem
  exact ⟨f', hf', hpath⟩

/-- A bounded file of one load has at least that trust in the other. -/
theorem Reordered.le_trust (hroots : Reordered root root')
    (h : LoadedTree machine format root files) (h' : LoadedTree machine format root' files') :
    ∀ f ∈ files, ∀ b, f.boundary = some b →
      SameOwned machine format root files files' f.path →
      ∃ f' ∈ files',
        f'.path = f.path ∧ ∃ b', f'.boundary = some b' ∧ b.bundle.trust ≤ b'.bundle.trust := by
  -- Along the entries through which the files of the first load arrived, from the Git include that
  -- made the boundary on; each of them was followed in the second load too.
  refine h.induction ?_ ?_
  · intro b hb
    rw [h.owned] at hb
    cases hb
  · intro d hd f hf entry hentry hfollowed hboundary ih b hb howned
    obtain ⟨d', hd', hdpath⟩ := hroots.mem h h' hd
    have hentry' : entry ∈ d'.file.includes := hroots.includes h h' hd hd' hdpath hentry
    obtain ⟨f', hf', hfollowed', hkeeps⟩ := h'.delivered d' hd' entry hentry'
    have hfpath : f'.path = f.path := by
      have htarget' := hfollowed'.target
      rw [hdpath, hfollowed.target, Option.some.injEq] at htarget'
      exact htarget'.symm
    have hedge : IncludeEdge machine format root d.path f.path := h.edge hd hentry hfollowed.target
    have hbounded : f'.boundary ≠ none := by
      intro hnone
      rw [(howned f hf f' hf' hfpath .refl).mpr hnone] at hb
      cases hb
    -- What the entry carries in the second load is no less.
    have hcarried : ∃ b', carriedBoundary machine d'.boundary entry = some b' ∧
        b.bundle.trust ≤ b'.bundle.trust := by
      rw [hboundary] at hb
      cases hgit : entry.remote with
      | some remote =>
          have hsome : entry.remote.isSome = true := by rw [hgit]; rfl
          have hsame := howned d hd d' hd' hdpath (.single hedge)
          obtain ⟨b', hb', htrust⟩ := carried_git hsome hsame hb
          exact ⟨b', hb', htrust.ge⟩
      | none =>
          cases entry with
          | git repo gitRef path hostPaths nestedGit reviewed => cases hgit
          | file path =>
              have howned' : SameOwned machine format root files files' d.path :=
                fun g hg g' hg' hpath hreach => howned g hg g' hg' hpath (hreach.tail hedge)
              obtain ⟨d'', hd'', hdpath'', b', hb', hle⟩ := ih b hb howned'
              rw [h'.path_unique hd'' hd' (hdpath''.trans hdpath.symm)] at hb'
              exact ⟨b', hb', hle⟩
    obtain ⟨b', hb', hle⟩ := hcarried
    rcases hkeeps b' hb' with hnone | ⟨own, hown, hle'⟩
    · exact absurd hnone hbounded
    · exact ⟨f', hf', hfpath, own, hown, hle.trans hle'⟩

/-- Where the loads agree on who is owned, a file has the same trust in both. -/
theorem Reordered.trust_eq (hroots : Reordered root root')
    (h : LoadedTree machine format root files) (h' : LoadedTree machine format root' files')
    {f f' : LoadedFile} (hf : f ∈ files) (hf' : f' ∈ files') (hpath : f'.path = f.path)
    (howned : SameOwned machine format root files files' f.path) : f.trust = f'.trust := by
  have howned' : SameOwned machine format root' files' files f'.path := by
    intro d' hd' d hd hdpath hreach
    rw [hpath] at hreach
    have hreach' := hroots.symm.reaches hreach
    rw [← hdpath] at hreach'
    exact (howned d hd d' hd' hdpath.symm hreach').symm
  cases hb : f.boundary with
  | none =>
      have hnone : f'.boundary = none := (howned f hf f' hf' hpath .refl).mp hb
      unfold LoadedFile.trust
      rw [hb, hnone]
  | some b =>
      obtain ⟨g', hg', hgpath, b', hb', hle⟩ := hroots.le_trust h h' f hf b hb howned
      rw [h'.path_unique hg' hf' (hgpath.trans hpath.symm)] at hb'
      obtain ⟨g, hg, hgpath', b'', hb'', hle'⟩ := hroots.symm.le_trust h' h f' hf' b' hb' howned'
      rw [h.path_unique hg hf (hgpath'.trans hpath)] at hb''
      rw [hb, Option.some.injEq] at hb''
      unfold LoadedFile.trust
      rw [hb, hb', Option.map_some, Option.map_some, Option.some.injEq]
      exact le_antisymm hle (hb'' ▸ hle')

end orders

end trust

/-! ### Main results -/

section results

variable {machine : Machine} {format : ConfigFormat} {running : Option String} {rounds : ℕ}

/-- **Bundles are confined.**  Of every load that succeeds: a file with a boundary lies inside the
checkout; a boundary that grants anything was made by a Git include of an owned file; and in the
native format a file with a boundary has its Git includes followed, and their remotes cloned, only
if that boundary grants it, and the bundles they reach are granted nothing. -/
theorem bundles_confined {path : Path} {loaded : LoadedConfig}
    (h : loadFromFile machine format running rounds path = some (.ok loaded)) :
    (∀ f ∈ loaded.files, ∀ b, f.boundary = some b →
      Paths.startsWith (Paths.clean f.path) b.repoDir = true) ∧
    (∀ f ∈ loaded.files, ∀ b, f.boundary = some b →
      b.bundle.trust.hostPaths = true ∨ b.bundle.trust.nestedGit = true →
      ∃ d ∈ loaded.files,
        d.boundary = none ∧ ∃ entry ∈ d.file.includes, entry.remote.isSome = true ∧
        carriedBoundary machine none entry = some b) ∧
    (format = .native →
      (∀ d ∈ loaded.files, ∀ b, d.boundary = some b → ∀ entry ∈ d.file.includes,
        entry.remote.isSome = true → b.bundle.trust.nestedGit = true ∧
          ∃ reached, carriedBoundary machine (some b) entry = some reached ∧
            reached.bundle.trust = .NONE) ∧
      ∀ clone ∈ loaded.gitClones, ∃ d ∈ loaded.files, ∃ entry ∈ d.file.includes,
        entry.remote = some clone.1 ∧ ∀ b, d.boundary = some b →
          b.bundle.trust.nestedGit = true) := by
  obtain ⟨root, -, hroot, hload⟩ := loadFromFile_ok h
  have htree : LoadedTree machine format root loaded.files := loadFrom_tree hroot hload
  have hnested : format = .native → ∀ d ∈ loaded.files, ∀ b, d.boundary = some b →
      ∀ entry ∈ d.file.includes, entry.remote.isSome = true → b.bundle.trust.nestedGit = true ∧
        ∃ reached, carriedBoundary machine (some b) entry = some reached ∧
          reached.bundle.trust = .NONE := by
    rintro rfl d hd b hb entry hentry hgit
    obtain ⟨f, -, hfollowed, -⟩ := htree.delivered d hd entry hentry
    rw [hb] at hfollowed
    obtain ⟨reached, hreached⟩ := hfollowed.carried hgit
    exact ⟨hfollowed.nestedGit hgit, reached, hreached, carried_in_bundle hgit hreached⟩
  refine ⟨fun f hf b hb => htree.inside hf hb, fun f hf b hb => htree.granted_by_owner hf hb, ?_⟩
  intro hnative
  refine ⟨hnested hnative, ?_⟩
  intro clone hclone
  obtain ⟨t, ht, hfinish⟩ := loadFrom_ok hload
  obtain ⟨hfiles, hclones⟩ := finishLoad_files hfinish
  obtain ⟨hwalked, -⟩ := walked_traverse hroot ht
  obtain ⟨d, hd, entry, hentry, hremote⟩ := hwalked.cloned clone (hclones ▸ hclone)
  have hd' : d ∈ loaded.files := hfiles ▸ hd
  refine ⟨d, hd', entry, hentry, hremote, ?_⟩
  intro b hb
  have hgit : entry.remote.isSome = true := by rw [hremote]; rfl
  exact (hnested hnative d hd' b hb entry hentry hgit).1

/-- A project whose root trusts a bundle, which pulls in another one. -/
def nestedBundles : Machine :=
  let file (path : String) (includes : List IncludeEntry) : Path × ConfigFile :=
    (Paths.ofText path.toList, { includes := includes })
  Machine.inMemory (Paths.ofText ['/', 'p']) (Paths.ofText ['/', 'h'])
    [ (Paths.ofText "/p/ratect.toml".toList,
        { projectName := some "p"
          includes := [.git ⟨"a"⟩ "1" none true (some true) none] }),
      file "/c/a/ratect-bundle.toml" [.file "tasks/build.toml".toList],
      file "/c/a/tasks/build.toml" [.git ⟨"b"⟩ "1" (some "b.yml".toList) true none none],
      file "/c/b/b.yml" [] ]
    [((⟨"a"⟩, "1"), Paths.ofText "/c/a".toList), ((⟨"b"⟩, "1"), Paths.ofText "/c/b".toList)]

/-- The nested bundle asks for host paths and gets nothing. -/
theorem bundles_confined_nested : ∃ loaded,
    loadFromFile nestedBundles .native none 10
      (Paths.ofText "/p/ratect.toml".toList) = some (.ok loaded) ∧
      loaded.files.map LoadedFile.trust = [none, some ⟨true, true⟩, some ⟨true, true⟩, some .NONE] ∧
      (∀ f ∈ loaded.files, ∀ b, f.boundary = some b →
        Paths.startsWith (Paths.clean f.path) b.repoDir = true) := by
  have hrun : Loop.succeeds (fun loaded => decide (loaded.files.map LoadedFile.trust =
        [none, some ⟨true, true⟩, some ⟨true, true⟩, some .NONE]))
      (loadFromFile nestedBundles .native none 10 (Paths.ofText "/p/ratect.toml".toList)) =
        true := by
    decide +kernel
  obtain ⟨loaded, hloaded, htrust⟩ := Loop.exists_of_succeeds hrun
  exact ⟨loaded, hloaded, of_decide_eq_true htrust, (bundles_confined hloaded).1⟩

/-- Every entry that points to a file carries a boundary. -/
def OnlyBounded (machine : Machine) (format : ConfigFormat) (files : List LoadedFile)
    (q : Path) : Prop :=
  ∀ d ∈ files, ∀ entry ∈ d.file.includes, entryTarget machine format d.path entry = some q →
    (carriedBoundary machine d.boundary entry).isSome = true

/-- **No grant is silently lost.**  Of every load that succeeds: each entry of a loaded file led to
a loaded file that has no boundary or one granting at least what the entry carried; a file with a
boundary has the most that any route to it carries; and with the root's entries in any other order
that loads too, a file has the same trust, provided that the files which lead to it are owned in
both loads or in neither. -/
theorem no_grant_lost {path : Path} {root : LoadedFile} {loaded : LoadedConfig}
    (hroot : readRoot machine format path = .ok root)
    (h : loadFrom machine format running rounds root = some (.ok loaded)) :
    (∀ d ∈ loaded.files, ∀ entry ∈ d.file.includes, ∃ f ∈ loaded.files,
      entryTarget machine format d.path entry = some f.path ∧
        ∀ b, carriedBoundary machine d.boundary entry = some b →
          f.boundary = none ∨ ∃ own, f.boundary = some own ∧ b.bundle.trust ≤ own.bundle.trust) ∧
    (∀ f ∈ loaded.files, ∀ b, f.boundary = some b →
      IsGreatest (RouteTrust machine format loaded.files f.path) b.bundle.trust) ∧
    ∀ order, order.Perm root.file.includes → ∀ rounds' loaded',
      loadFrom machine format running rounds' (root.withIncludes order) = some (.ok loaded') →
      ∀ f ∈ loaded.files, ∀ f' ∈ loaded'.files, f'.path = f.path →
        SameOwned machine format root loaded.files loaded'.files f.path → f.trust = f'.trust := by
  have howned : root.boundary = none := (readRoot_ok hroot).1
  have htree : LoadedTree machine format root loaded.files := loadFrom_tree howned h
  refine ⟨?_, fun f hf b hb => htree.greatest_trust hf hb, ?_⟩
  · intro d hd entry hentry
    obtain ⟨f, hf, hfollowed, hkeeps⟩ := htree.delivered d hd entry hentry
    exact ⟨f, hf, hfollowed.target, hkeeps⟩
  · intro order horder rounds' loaded' h' f hf f' hf' hpath hsame
    have htree' : LoadedTree machine format (root.withIncludes order) loaded'.files :=
      loadFrom_tree howned h'
    have hroots : Reordered root (root.withIncludes order) := ⟨rfl, fun entry => horder.mem_iff⟩
    exact hroots.trust_eq htree htree' hf hf' hpath hsame

instance (machine : Machine) (format : ConfigFormat) (files : List LoadedFile) (q : Path) :
    Decidable (OnlyBounded machine format files q) :=
  inferInstanceAs (Decidable (∀ d ∈ files, ∀ entry ∈ d.file.includes,
    entryTarget machine format d.path entry = some q →
      (carriedBoundary machine d.boundary entry).isSome = true))

/-- A checkout's file as the root's own, and through the bundle it belongs to. -/
def sharedEntries : List IncludeEntry :=
  [.file "../c/a/d.toml".toList, .git ⟨"a"⟩ "1" (some "d.toml".toList) false (some true) none]

/-- The root that includes them. -/
def sharedRoot : LoadedFile where
  path := Paths.ofText "/p/ratect.toml".toList
  file := { projectName := some "p", includes := sharedEntries }
  boundary := none

/-- The shared file vouches for a file of another bundle, which only the owner can do. -/
def sharedCheckout : Machine :=
  Machine.inMemory (Paths.ofText ['/', 'p']) (Paths.ofText ['/', 'h'])
    [ (sharedRoot.path, sharedRoot.file),
      (Paths.ofText "/c/a/d.toml".toList,
        { includes := [.git ⟨"b"⟩ "1" (some "g.toml".toList) true none none] }),
      (Paths.ofText "/c/b/g.toml".toList, {}) ]
    [((⟨"a"⟩, "1"), Paths.ofText "/c/a".toList), ((⟨"b"⟩, "1"), Paths.ofText "/c/b".toList)]

/-- The load of the shared checkout has this trust for the vouched file, reached through Git
alone. -/
def vouched (trust : Trust) (loaded : LoadedConfig) : Bool :=
  decide (∃ f ∈ loaded.files, f.path = Paths.ofText "/c/b/g.toml".toList ∧ f.trust = some trust ∧
    OnlyBounded sharedCheckout .native loaded.files f.path)

/-- The order of the root's entries decides whether the shared file is owned, and with it the trust
of the file it vouches for. -/
theorem order_changes_trust :
    ¬ ∀ (machine : Machine) (format : ConfigFormat) (running : Option String) (rounds : ℕ)
      (path : Path) (root : LoadedFile) (loaded : LoadedConfig),
    readRoot machine format path = .ok root →
    loadFrom machine format running rounds root = some (.ok loaded) →
    ∀ order, order.Perm root.file.includes → ∀ rounds' loaded',
      loadFrom machine format running rounds' (root.withIncludes order) = some (.ok loaded') →
      ∀ f ∈ loaded.files, ∀ f' ∈ loaded'.files, f'.path = f.path →
        OnlyBounded machine format loaded.files f.path →
          OnlyBounded machine format loaded'.files f'.path →
          f.trust = f'.trust := by
  intro hclaim
  have hrun : Loop.succeeds (vouched ⟨true, false⟩)
      (loadFrom sharedCheckout .native none 10 sharedRoot) = true := by decide +kernel
  have hrun' : Loop.succeeds (vouched .NONE)
      (loadFrom sharedCheckout .native none 10 (sharedRoot.withIncludes sharedEntries.reverse)) =
        true := by
    decide +kernel
  obtain ⟨loaded, hloaded, htest⟩ := Loop.exists_of_succeeds hrun
  obtain ⟨loaded', hloaded', htest'⟩ := Loop.exists_of_succeeds hrun'
  obtain ⟨f, hf, hpath, htrust, honly⟩ := of_decide_eq_true htest
  obtain ⟨f', hf', hpath', htrust', honly'⟩ := of_decide_eq_true htest'
  have hsame := hclaim sharedCheckout .native none 10 sharedRoot.path sharedRoot loaded rfl hloaded
    sharedEntries.reverse sharedEntries.reverse_perm 10 loaded' hloaded' f hf f' hf'
    (hpath'.trans hpath.symm) honly honly'
  rw [htrust, htrust'] at hsame
  exact absurd hsame (by decide)

/-- The root of two bundles, one of which includes a file of its own. -/
def twoBundlesRoot : LoadedFile where
  path := Paths.ofText "/p/ratect.toml".toList
  file :=
    { projectName := some "p"
      includes := [.git ⟨"a"⟩ "1" (some "d.toml".toList) true none none,
        .git ⟨"b"⟩ "1" (some "g.toml".toList) false none none] }
  boundary := none

/-- Two bundles of one project. -/
def twoBundles : Machine :=
  Machine.inMemory (Paths.ofText ['/', 'p']) (Paths.ofText ['/', 'h'])
    [ (twoBundlesRoot.path, twoBundlesRoot.file),
      (Paths.ofText "/c/a/d.toml".toList, { includes := [.file "e.toml".toList] }),
      (Paths.ofText "/c/a/e.toml".toList, {}),
      (Paths.ofText "/c/b/g.toml".toList, {}) ]
    [((⟨"a"⟩, "1"), Paths.ofText "/c/a".toList), ((⟨"b"⟩, "1"), Paths.ofText "/c/b".toList)]

/-- Which files of a load are owned. -/
def LoadedConfig.owned (loaded : LoadedConfig) : List (Path × Bool) :=
  loaded.files.map fun f => (f.path, f.boundary.isNone)

/-- The owned files of `twoBundles`: the root alone. -/
def twoBundlesOwned : List (Path × Bool) :=
  [ (Paths.ofText "/p/ratect.toml".toList, true), (Paths.ofText "/c/a/d.toml".toList, false),
    (Paths.ofText "/c/a/e.toml".toList, false), (Paths.ofText "/c/b/g.toml".toList, false) ]

/-- In either order of the root's entries, every file of the two bundles has the same trust. -/
theorem no_grant_lost_two_bundles : ∃ loaded loaded',
    loadFrom twoBundles .native none 10 twoBundlesRoot = some (.ok loaded) ∧
    loadFrom twoBundles .native none 10
        (twoBundlesRoot.withIncludes twoBundlesRoot.file.includes.reverse) = some (.ok loaded') ∧
    ∀ f ∈ loaded.files, ∀ f' ∈ loaded'.files, f'.path = f.path → f.trust = f'.trust := by
  have hrun : Loop.succeeds (fun loaded : LoadedConfig => decide (loaded.owned ⊆ twoBundlesOwned))
      (loadFrom twoBundles .native none 10 twoBundlesRoot) = true := by decide +kernel
  have hrun' : Loop.succeeds (fun loaded : LoadedConfig => decide (loaded.owned ⊆ twoBundlesOwned))
      (loadFrom twoBundles .native none 10
        (twoBundlesRoot.withIncludes twoBundlesRoot.file.includes.reverse)) = true := by
          decide +kernel
  obtain ⟨loaded, hloaded, htest⟩ := Loop.exists_of_succeeds hrun
  obtain ⟨loaded', hloaded', htest'⟩ := Loop.exists_of_succeeds hrun'
  have howned : ∀ d ∈ loaded.files, ∀ d' ∈ loaded'.files, d'.path = d.path →
      (d.boundary = none ↔ d'.boundary = none) := by
    intro d hd d' hd' hpath
    have hmem := of_decide_eq_true htest (List.mem_map_of_mem hd)
    have hmem' := of_decide_eq_true htest' (List.mem_map_of_mem hd')
    have hkeys : (twoBundlesOwned.map Prod.fst).Nodup := by decide +kernel
    have heq : d.boundary.isNone = d'.boundary.isNone :=
      congrArg Prod.snd (List.inj_on_of_nodup_map hkeys hmem hmem' hpath.symm)
    rw [← Option.isNone_iff_eq_none, ← Option.isNone_iff_eq_none, heq]
  refine ⟨loaded, loaded', hloaded, hloaded', ?_⟩
  intro f hf f' hf' hpath
  have hroot : readRoot twoBundles .native twoBundlesRoot.path = .ok twoBundlesRoot := rfl
  exact (no_grant_lost hroot hloaded).2.2 _ (List.reverse_perm _) 10 loaded'
    hloaded' f hf f' hf' hpath
    fun d hd d' hd' hdpath _ => howned d hd d' hd' hdpath

end results

end Ratect
