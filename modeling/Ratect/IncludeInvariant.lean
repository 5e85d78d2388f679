import Ratect.LoadedConfig
import Ratect.Transition

/-! # What the walk over includes keeps

Which file an include entry points to, and the boundary it carries, depend on the declaring file,
its boundary and the entry alone (`entryTarget`, `carriedBoundary`); the walk's memory of clones
changes neither.  `visitEntry_cases` says once what a visit does.  From it `Walked`: every file but
the root arrived through an entry of a file loaded before it, every entry of a loaded file is still
in the queue or was followed, and what the walk remembers of each file agrees with how it was
loaded. -/

namespace Ratect

open Paths (Path)
open Transition (Logged)

section targets

variable (machine : Machine) (format : ConfigFormat)

/-- A path made absolute, if it is a file. -/
def fileAt (path : Path) : Option Path :=
  match absolutePath machine path with
  | .error _ => none
  | .ok resolved => if machine.isFile resolved then some resolved else none

/-- The file that an entry points to, whatever it may read. -/
def entryTarget (declaring : Path) : IncludeEntry → Option Path
  | .file path =>
      match localIncludeTarget machine (containingDir declaring) path with
      | .error _ => none
      | .ok target => fileAt machine target
  | .git repo gitRef path _ _ _ =>
      match machine.ensureCached repo gitRef with
      | .error _ => none
      | .ok dir => (gitCandidates format path).findSome? fun candidate =>
          fileAt machine (Paths.join dir (Paths.ofText candidate))

/-- The boundary that an entry carries: a local include's is its file's own, a Git include makes a
new one. -/
def carriedBoundary (boundary : Option Boundary) : IncludeEntry → Option Boundary
  | .file _ => boundary
  | .git repo gitRef _ hostPaths nestedGit _ =>
      match machine.ensureCached repo gitRef with
      | .error _ => none
      | .ok dir =>
          some ⟨dir, .granted (boundary.map Boundary.bundle) ⟨repo, gitRef⟩ ⟨hostPaths, nestedGit⟩⟩

/-- The entry may be declared where it is. -/
def Permitted (boundary : Option Boundary) : IncludeEntry → Prop
  | .file _ => True
  | .git repo .. =>
      checkMayDeclareGit (restricting (boundary.map Boundary.bundle) format) repo = .ok ()

/-- The entry sets no native-only field in a Batect-format file. -/
def InDialect (declaring : Path) : IncludeEntry → Prop
  | .file _ => True
  | .git _ _ _ _ nestedGit reviewed =>
      format.readsAsBatect declaring = true → nestedGit = none ∧ reviewed = none

/-- An entry that the walk follows, and the file it resolves to. -/
structure Followed (declaring : Path) (boundary : Option Boundary) (entry : IncludeEntry)
    (resolved : Path) : Prop where
  target : entryTarget machine format declaring entry = some resolved
  permitted : Permitted format boundary entry
  dialect : InDialect format declaring entry
  contained : boundaryContains machine (carriedBoundary machine boundary entry) resolved = .ok ()

/-- The remote and ref that a Git include names. -/
def IncludeEntry.remote : IncludeEntry → Option (Remote × String)
  | .file _ => none
  | .git repo gitRef .. => some (repo, gitRef)

/-- The clones that a walk remembers are the cache's. -/
def ClonesOf (clones : Clones) : Prop := ∀ e ∈ clones, machine.ensureCached e.1.1 e.1.2 = .ok e.2

end targets

section inversion

variable {machine : Machine} {format : ConfigFormat}

theorem includeFileAt_ok {target resolved : Path} {asWritten : Text} {boundary : Option Boundary}
    (h : includeFileAt machine target asWritten boundary = .ok resolved) :
    fileAt machine target = some resolved := by
  unfold includeFileAt at h
  split at h
  · cases h
  · obtain ⟨r, hr, h⟩ := Except.bind_eq_ok.mp h
    obtain ⟨_, -, h⟩ := Except.bind_eq_ok.mp h
    unfold fileAt
    rw [hr]
    split at h
    · next hfile =>
        cases h
        exact if_pos hfile
    · split at h <;> cases h

theorem firstCandidate_ok {dir resolved : Path} {boundary : Option Boundary}
    {all candidates : List Text}
    (h : firstCandidate machine dir boundary all candidates = .ok resolved) :
    candidates.findSome? (fun candidate =>
      fileAt machine (Paths.join dir (Paths.ofText candidate))) =
      some resolved := by
  induction candidates with
  | nil => cases h
  | cons candidate rest ih =>
      unfold firstCandidate at h
      obtain ⟨r, hr, h⟩ := Except.bind_eq_ok.mp h
      obtain ⟨_, -, h⟩ := Except.bind_eq_ok.mp h
      have hat : fileAt machine (Paths.join dir (Paths.ofText candidate)) =
          if machine.isFile r then some r else none := by
        unfold fileAt
        rw [hr]
      split at h
      · next hfile =>
          cases h
          rw [if_pos hfile] at hat
          rw [List.findSome?_cons, hat]
      · next hfile =>
          rw [if_neg hfile] at hat
          rw [List.findSome?_cons, hat]
          exact ih h

theorem resolveIncludeTarget_ok {dir resolved : Path} {boundary : Option Boundary}
    {candidates : List Text}
    (h : resolveIncludeTarget machine dir candidates boundary = .ok resolved) :
    candidates.findSome? (fun candidate =>
      fileAt machine (Paths.join dir (Paths.ofText candidate))) =
      some resolved := by
  unfold resolveIncludeTarget at h
  split at h
  · next only =>
      rw [List.findSome?_singleton]
      exact includeFileAt_ok h
  · exact firstCandidate_ok h

theorem cloneDir_ok {clones clones' : Clones} {repo : Remote} {gitRef : String}
    {candidates : List Text} {restricted : Option Bundle} {dir : Path}
    (hclones : ClonesOf machine clones)
    (h : cloneDir machine clones repo gitRef candidates restricted = .ok (dir, clones')) :
    machine.ensureCached repo gitRef = .ok dir ∧ ClonesOf machine clones' ∧
      ∀ e ∈ clones', e ∈ clones ∨ e.1 = (repo, gitRef) := by
  unfold cloneDir at h
  split at h
  · next found hfound =>
      cases h
      obtain ⟨e, he, rfl⟩ := Option.map_eq_some_iff.mp hfound
      have hkey : e.1 = (repo, gitRef) := by simpa using List.find?_some he
      have hcached := hclones e (List.mem_of_find?_eq_some he)
      rw [hkey] at hcached
      exact ⟨hcached, hclones, fun _ => Or.inl⟩
  · split at h
    · cases h
    · next cached hcached =>
        cases h
        refine ⟨hcached, ?_, ?_⟩
        · intro e he
          rcases List.mem_append.mp he with he | he
          · exact hclones e he
          · rw [List.mem_singleton.mp he]
            exact hcached
        · intro e he
          rcases List.mem_append.mp he with he | he
          · exact Or.inl he
          · rw [List.mem_singleton.mp he]
            exact Or.inr rfl

theorem inDialect_of_checkDialect {asked : Grants} {reviewed : Option String}
    {declaring : Option Bundle} {declaredIn : String} {batectFile : Option BatectFile}
    {repo : Remote}
    (h : checkDialect asked reviewed.isSome declaring declaredIn batectFile repo format = .ok ())
    (hbatect : batectFile.isSome) : asked.nestedGit = none ∧ reviewed = none := by
  obtain ⟨file, rfl⟩ := Option.isSome_iff_exists.mp hbatect
  unfold checkDialect at h
  cases hnested : asked.nestedGit with
  | some b =>
      simp only [hnested, Option.isSome_some, if_true] at h
      cases format <;> cases h
  | none =>
      simp only [hnested, Option.isSome_none, Bool.false_eq_true, if_false] at h
      cases reviewed with
      | none => exact ⟨rfl, rfl⟩
      | some version =>
          simp only [Option.isSome_some, if_true] at h
          cases format <;> cases h

/-- A Git include carries the boundary of its clone. -/
theorem carriedBoundary_git {boundary : Option Boundary} {repo : Remote} {gitRef : String}
    {path : Option Text} {hostPaths : Bool} {nestedGit : Option Bool} {reviewed : Option String}
    {b : Boundary} :
    carriedBoundary machine boundary (.git repo gitRef path hostPaths nestedGit reviewed) = some b ↔
      ∃ dir, machine.ensureCached repo gitRef = .ok dir ∧
        b = ⟨dir, .granted (boundary.map Boundary.bundle) ⟨repo, gitRef⟩
          ⟨hostPaths, nestedGit⟩⟩ := by
  simp only [carriedBoundary]
  cases machine.ensureCached repo gitRef with
  | error e => simp
  | ok dir =>
      constructor
      · intro h
        exact ⟨dir, rfl, (Option.some.inj h).symm⟩
      · rintro ⟨dir', hdir, rfl⟩
        cases hdir
        rfl

/-- The file of a Git include is in its clone. -/
theorem entryTarget_git {declaring resolved : Path} {repo : Remote} {gitRef : String}
    {path : Option Text} {hostPaths : Bool} {nestedGit : Option Bool} {reviewed : Option String} :
    entryTarget machine format declaring (.git repo gitRef path hostPaths nestedGit reviewed) =
        some resolved ↔
      ∃ dir, machine.ensureCached repo gitRef = .ok dir ∧
        (gitCandidates format path).findSome? (fun candidate =>
          fileAt machine (Paths.join dir (Paths.ofText candidate))) = some resolved := by
  simp only [entryTarget]
  cases machine.ensureCached repo gitRef with
  | error e => simp
  | ok dir => simp

/-- Where an entry resolves to and what it carries is fixed by the declaring file and the entry. -/
theorem resolveEntry_ok {root resolved : Path} {clones clones' : Clones} {p : Pending}
    {boundary : Option Boundary} (hclones : ClonesOf machine clones)
    (h : resolveEntry machine format root clones p = .ok (resolved, boundary, clones')) :
    entryTarget machine format p.declaringFile p.entry = some resolved ∧
      boundary = carriedBoundary machine p.boundary p.entry ∧ Permitted format p.boundary p.entry ∧
      InDialect format p.declaringFile p.entry ∧ ClonesOf machine clones' ∧
      ∀ e ∈ clones', e ∈ clones ∨ p.entry.remote = some e.1 := by
  unfold resolveEntry at h
  cases hentry : p.entry with
  | file path =>
      rw [hentry] at h
      obtain ⟨r, hr, h⟩ := Except.bind_eq_ok.mp h
      cases h
      obtain ⟨target, htarget, hr⟩ := Except.bind_eq_ok.mp hr
      refine ⟨?_, rfl, trivial, trivial, hclones, fun _ => Or.inl⟩
      unfold entryTarget
      simp only [htarget]
      exact includeFileAt_ok hr
  | git repo gitRef path hostPaths nestedGit reviewed =>
      rw [hentry] at h
      obtain ⟨_, hdialect, h⟩ := Except.bind_eq_ok.mp h
      obtain ⟨_, hmay, h⟩ := Except.bind_eq_ok.mp h
      obtain ⟨⟨dir, clones''⟩, hclone, h⟩ := Except.bind_eq_ok.mp h
      obtain ⟨r, hr, h⟩ := Except.bind_eq_ok.mp h
      cases h
      obtain ⟨hcached, hof, hsub⟩ := cloneDir_ok hclones hclone
      refine ⟨entryTarget_git.mpr ⟨dir, hcached, resolveIncludeTarget_ok hr⟩,
        (carriedBoundary_git.mpr ⟨dir, hcached, rfl⟩).symm, hmay, ?_, hof, ?_⟩
      · intro hbatect
        have hsome : (declaredInBatect format root p).isSome := by
          unfold declaredInBatect
          rw [if_pos hbatect]
          rfl
        exact inDialect_of_checkDialect hdialect hsome
      · intro e he
        exact (hsub e he).imp_right fun hkey => congrArg some hkey.symm

/-- Reading a file gives the same whichever boundary it was reached through. -/
theorem parse_ok {path : Path} {boundary : Option Boundary} {file : ConfigFile}
    (h : format.parse machine path boundary = .ok file) :
    format.parse machine path none = .ok file := by
  unfold ConfigFormat.parse at *
  split at h
  · exact h
  · split at h
    · exact h
    · exact h
    · cases h

theorem readIncluded_ok {resolved : Path} {boundary : Option Boundary} {entry : IncludeEntry}
    {f : LoadedFile} (h : readIncluded machine format resolved boundary entry = .ok f) :
    f.path = resolved ∧ f.boundary = boundary ∧
      format.parse machine resolved none = .ok f.file := by
  unfold readIncluded at h
  obtain ⟨file, hparse, h⟩ := Except.bind_eq_ok.mp h
  obtain ⟨_, -, h⟩ := Except.bind_eq_ok.mp h
  obtain ⟨_, -, h⟩ := Except.bind_eq_ok.mp h
  cases h
  exact ⟨rfl, rfl, parse_ok hparse⟩

/-- What one visit does: the entry is followed, and its file was loaded before or is loaded now. -/
theorem visitEntry_cases {running : Option String} {root : Path} {t t' : Traversal} {p : Pending}
    (hclones : ClonesOf machine t.gitRepoPaths)
    (h : visitEntry machine format running root t p = .ok t') :
    ∃ resolved, Followed machine format p.declaringFile p.boundary p.entry resolved ∧
      ClonesOf machine t'.gitRepoPaths ∧
      (∀ e ∈ t'.gitRepoPaths, e ∈ t.gitRepoPaths ∨ p.entry.remote = some e.1) ∧
      ((resolved ∈ t.seen ∧ t'.seen = t.seen ∧ t'.effectiveGrants = t.effectiveGrants ∧
          t'.queue = t.queue ∧ t'.loaded = t.loaded ∧
          checkGrants t.effectiveGrants resolved p.entry
            (carriedBoundary machine p.boundary p.entry) =
            .ok ()) ∨
        (resolved ∉ t.seen ∧ ∃ f : LoadedFile, f.path = resolved ∧
          f.boundary = carriedBoundary machine p.boundary p.entry ∧
          format.parse machine resolved none = .ok f.file ∧ t'.seen = t.seen ++ [resolved] ∧
          t'.effectiveGrants =
            t.effectiveGrants.record resolved (f.boundary.map fun b => b.bundle.trust) ∧
          t'.queue = t.queue ++ f.pending ∧ t'.loaded = t.loaded ++ [f])) := by
  unfold visitEntry at h
  obtain ⟨⟨resolved, boundary, clones⟩, hresolve, h⟩ := Except.bind_eq_ok.mp h
  obtain ⟨_, hcontains, h⟩ := Except.bind_eq_ok.mp h
  obtain ⟨yaml, -, h⟩ := Except.bind_eq_ok.mp h
  obtain ⟨htarget, rfl, hpermitted, hdialect, hof, hsub⟩ := resolveEntry_ok hclones hresolve
  refine ⟨resolved, ⟨htarget, hpermitted, hdialect, hcontains⟩, ?_⟩
  split at h
  · next hseen =>
      obtain ⟨_, hgrants, h⟩ := Except.bind_eq_ok.mp h
      cases h
      exact ⟨hof, hsub, Or.inl ⟨hseen, rfl, rfl, rfl, rfl, hgrants⟩⟩
  · next hseen =>
      obtain ⟨f, hf, h⟩ := Except.bind_eq_ok.mp h
      cases h
      obtain ⟨hpath, hboundary, hparse⟩ := readIncluded_ok hf
      refine ⟨hof, hsub, Or.inr ⟨hseen, f, hpath, hboundary, hparse, rfl, ?_, rfl, rfl⟩⟩
      rw [hboundary]

end inversion

/-! ### The trust of loaded files -/

/-- What an entry carries is not lost on the file it reaches: that file has no boundary, or one that
grants at least as much. -/
def LoadedFile.Keeps (f : LoadedFile) (carried : Option Boundary) : Prop :=
  ∀ b, carried = some b → f.boundary = none ∨
    ∃ own, f.boundary = some own ∧ b.bundle.trust ≤ own.bundle.trust

theorem lost_isEmpty {wanted effective : Trust}
    (h : (EffectiveGrants.lost wanted effective).isEmpty) : wanted ≤ effective := by
  unfold EffectiveGrants.lost at h
  rw [Trust.le_iff]
  constructor
  · intro hw
    by_contra he
    simp [hw, Bool.not_eq_true _ |>.mp he] at h
  · intro hw
    by_contra he
    simp [hw, Bool.not_eq_true _ |>.mp he] at h

theorem keeps_of_checkGrants {grants : EffectiveGrants} {f : LoadedFile} {entry : IncludeEntry}
    {carried : Option Boundary}
    (hrecorded : ∀ b, f.boundary = some b → grants.get? f.path = some (some b.bundle.trust))
    (h : checkGrants grants f.path entry carried = .ok ()) : f.Keeps carried := by
  rintro b rfl
  cases hb : f.boundary with
  | none => exact Or.inl rfl
  | some own =>
      refine Or.inr ⟨own, rfl, ?_⟩
      have hrepo : ∃ repo, grantRepo entry (some b) = some repo := by
        cases entry <;> exact ⟨_, rfl⟩
      obtain ⟨repo, hrepo⟩ := hrepo
      unfold checkGrants at h
      simp only [hrepo, Option.map_some] at h
      unfold EffectiveGrants.check at h
      rw [hrecorded own hb] at h
      simp only at h
      split at h
      · next hlost => exact lost_isEmpty hlost
      · cases h

namespace EffectiveGrants

theorem mem_record {grants : EffectiveGrants} {file : Path} {trust : Option Trust}
    {e : Path × Option Trust} (h : e ∈ grants.record file trust) : e ∈ grants ∨ e.1 = file := by
  unfold record at h
  split at h
  · exact Or.inl h
  · rcases List.mem_append.mp h with h | h
    · exact Or.inl h
    · rw [List.mem_singleton.mp h]
      exact Or.inr rfl

theorem get?_record_old {grants : EffectiveGrants} {file other : Path} {trust : Option Trust}
    {v : Option Trust} (h : grants.get? other = some v) :
    (grants.record file trust).get? other = some v := by
  unfold record
  split
  · exact h
  · unfold get? at *
    obtain ⟨e, he, rfl⟩ := Option.map_eq_some_iff.mp h
    rw [List.find?_append, he]
    rfl

theorem get?_record_new {grants : EffectiveGrants} {file : Path} {trust : Option Trust}
    (h : ∀ e ∈ grants, e.1 ≠ file) : (grants.record file trust).get? file = some trust := by
  have hnone : (grants.find? fun e => e.1 = file) = none := by
    rw [List.find?_eq_none]
    intro e he
    simpa using h e he
  unfold record
  rw [if_neg (by simp [get?, hnone])]
  unfold get?
  rw [List.find?_append, hnone]
  simp

end EffectiveGrants

/-! ### The invariant -/

section invariant

variable (machine : Machine) (format : ConfigFormat)

/-- A file arrived: it is the root, or an entry of a file loaded before it was followed to it. -/
def Arrived (root : LoadedFile) (before : List LoadedFile) (f : LoadedFile) : Prop :=
  (before = [] ∧ f = root) ∨
    ∃ d ∈ before, ∃ entry ∈ d.file.includes,
      Followed machine format d.path d.boundary entry f.path ∧
      f.boundary = carriedBoundary machine d.boundary entry ∧
      format.parse machine f.path none = .ok f.file

/-- An entry was followed to a loaded file, which lost nothing of what it carried. -/
def Delivered (loaded : List LoadedFile) (p : Pending) : Prop :=
  ∃ f ∈ loaded, Followed machine format p.declaringFile p.boundary p.entry f.path ∧
    f.Keeps (carriedBoundary machine p.boundary p.entry)

/-- What holds in every state of the walk. -/
structure Walked (root : LoadedFile) (t : Traversal) : Prop where
  clones : ClonesOf machine t.gitRepoPaths
  cloned : ∀ e ∈ t.gitRepoPaths, ∃ d ∈ t.loaded, ∃ entry ∈ d.file.includes, entry.remote = some e.1
  seen : t.seen = t.loaded.map LoadedFile.path
  nodup : t.seen.Nodup
  arrived : Logged (Arrived machine format root) t.loaded
  rooted : ∃ rest, t.loaded = root :: rest
  recorded : ∀ f ∈ t.loaded, ∀ b, f.boundary = some b →
    t.effectiveGrants.get? f.path = some (some b.bundle.trust)
  known : ∀ e ∈ t.effectiveGrants, e.1 ∈ t.seen
  queued : ∀ p ∈ t.queue, ∃ d ∈ t.loaded, p ∈ d.pending
  followed : ∀ d ∈ t.loaded, ∀ p ∈ d.pending, p ∈ t.queue ∨ Delivered machine format t.loaded p

variable {machine format} {root : LoadedFile}

theorem Delivered.mono {loaded loaded' : List LoadedFile} {p : Pending}
    (h : Delivered machine format loaded p) (hsub : ∀ f ∈ loaded, f ∈ loaded') :
    Delivered machine format loaded' p := by
  obtain ⟨f, hf, hrest⟩ := h
  exact ⟨f, hsub f hf, hrest⟩

theorem walked_start (hroot : root.boundary = none) :
    Walked machine format root (startTraversal root) where
  clones := by
    intro e he
    cases he
  cloned := by
    intro e he
    cases he
  seen := rfl
  nodup := List.nodup_singleton _
  arrived := Transition.logged_nil.concat (Or.inl ⟨rfl, rfl⟩)
  rooted := ⟨[], rfl⟩
  recorded := by
    intro f hf b hb
    rw [List.mem_singleton.mp hf, hroot] at hb
    cases hb
  known := by
    intro e he
    cases he
  queued := fun p hp => ⟨root, List.mem_singleton_self _, hp⟩
  followed := by
    intro d hd p hp
    rw [List.mem_singleton.mp hd] at hp
    exact Or.inl hp

theorem mem_pending {d : LoadedFile} {p : Pending} :
    p ∈ d.pending ↔
      p.declaringFile = d.path ∧ p.boundary = d.boundary ∧ p.entry ∈ d.file.includes := by
  unfold LoadedFile.pending
  rw [List.mem_map]
  constructor
  · rintro ⟨entry, hentry, rfl⟩
    exact ⟨rfl, rfl, hentry⟩
  · rintro ⟨hpath, hboundary, hentry⟩
    refine ⟨p.entry, hentry, ?_⟩
    rw [← hpath, ← hboundary]

/-- A visited entry is one of a loaded file. -/
theorem Walked.visiting {t : Traversal} {p : Pending} {queue : List Pending}
    (h : Walked machine format root t) (hqueue : t.queue = p :: queue) :
    ∃ d ∈ t.loaded,
      d.path = p.declaringFile ∧ d.boundary = p.boundary ∧ p.entry ∈ d.file.includes := by
  obtain ⟨d, hd, hp⟩ := h.queued p (hqueue ▸ List.mem_cons_self)
  obtain ⟨hpath, hboundary, hentry⟩ := mem_pending.mp hp
  exact ⟨d, hd, hpath.symm, hboundary.symm, hentry⟩

/-- A round that reaches a file loaded before keeps the invariant. -/
theorem Walked.seenBefore {t t' : Traversal} {p : Pending} {queue : List Pending} {resolved : Path}
    (h : Walked machine format root t) (hqueue : t.queue = p :: queue)
    (hfollowed : Followed machine format p.declaringFile p.boundary p.entry resolved)
    (hclones : ClonesOf machine t'.gitRepoPaths)
    (hcloned : ∀ e ∈ t'.gitRepoPaths, e ∈ t.gitRepoPaths ∨ p.entry.remote = some e.1)
    (hseen : resolved ∈ t.seen) (hseen' : t'.seen = t.seen)
    (hgrants' : t'.effectiveGrants = t.effectiveGrants) (hqueue' : t'.queue = queue)
    (hloaded' : t'.loaded = t.loaded)
    (hgrants : checkGrants t.effectiveGrants resolved p.entry
      (carriedBoundary machine p.boundary p.entry) =
      .ok ()) : Walked machine format root t' := by
  obtain ⟨d, hd, -, -, hentry⟩ := h.visiting hqueue
  rw [h.seen, List.mem_map] at hseen
  obtain ⟨f, hf, rfl⟩ := hseen
  have hdelivered : Delivered machine format t.loaded p :=
    ⟨f, hf, hfollowed, keeps_of_checkGrants (h.recorded f hf) hgrants⟩
  constructor
  · exact hclones
  · intro e he
    rw [hloaded']
    rcases hcloned e he with he | he
    · exact h.cloned e he
    · exact ⟨d, hd, p.entry, hentry, he⟩
  · rw [hseen', hloaded', h.seen]
  · rw [hseen']
    exact h.nodup
  · rw [hloaded']
    exact h.arrived
  · rw [hloaded']
    exact h.rooted
  · rw [hloaded', hgrants']
    exact h.recorded
  · rw [hseen', hgrants']
    exact h.known
  · intro q hq
    rw [hloaded']
    exact h.queued q (by rw [hqueue]; exact List.mem_cons_of_mem _ (hqueue' ▸ hq))
  · intro d hd q hq
    rw [hloaded'] at hd ⊢
    rcases h.followed d hd q hq with hmem | hmem
    · rw [hqueue, List.mem_cons] at hmem
      rcases hmem with rfl | hmem
      · exact Or.inr hdelivered
      · exact Or.inl (hqueue' ▸ hmem)
    · exact Or.inr hmem

/-- A round that reads a new file keeps the invariant. -/
theorem Walked.readNow {t t' : Traversal} {p : Pending} {queue : List Pending} {f : LoadedFile}
    (h : Walked machine format root t) (hqueue : t.queue = p :: queue)
    (hfollowed : Followed machine format p.declaringFile p.boundary p.entry f.path)
    (hclones : ClonesOf machine t'.gitRepoPaths)
    (hcloned : ∀ e ∈ t'.gitRepoPaths, e ∈ t.gitRepoPaths ∨ p.entry.remote = some e.1)
    (hseen : f.path ∉ t.seen) (hseen' : t'.seen = t.seen ++ [f.path])
    (hgrants' : t'.effectiveGrants =
      t.effectiveGrants.record f.path (f.boundary.map fun b => b.bundle.trust))
    (hqueue' : t'.queue = queue ++ f.pending) (hloaded' : t'.loaded = t.loaded ++ [f])
    (hboundary : f.boundary = carriedBoundary machine p.boundary p.entry)
    (hparse : format.parse machine f.path none = .ok f.file) : Walked machine format root t' := by
  obtain ⟨d, hd, hdpath, hdboundary, hentry⟩ := h.visiting hqueue
  have hgrow : ∀ g ∈ t.loaded, g ∈ t.loaded ++ [f] := fun g => List.mem_append_left _
  have hdelivered : Delivered machine format (t.loaded ++ [f]) p := by
    refine ⟨f, List.mem_append_right _ (List.mem_singleton_self f), hfollowed, ?_⟩
    intro b hb
    exact Or.inr ⟨b, hboundary.trans hb, le_refl _⟩
  constructor
  · exact hclones
  · intro e he
    rw [hloaded']
    rcases hcloned e he with he | he
    · obtain ⟨g, hg, hrest⟩ := h.cloned e he
      exact ⟨g, hgrow g hg, hrest⟩
    · exact ⟨d, hgrow d hd, p.entry, hentry, he⟩
  · rw [hseen', hloaded', List.map_append, h.seen]
    rfl
  · rw [hseen', List.nodup_append]
    refine ⟨h.nodup, List.nodup_singleton _, ?_⟩
    rintro a ha b hb rfl
    exact hseen (List.mem_singleton.mp hb ▸ ha)
  · rw [hloaded']
    refine h.arrived.concat (Or.inr ⟨d, hd, p.entry, hentry, ?_, ?_, hparse⟩)
    · rw [hdpath, hdboundary]
      exact hfollowed
    · rw [hdboundary]
      exact hboundary
  · obtain ⟨rest, hrest⟩ := h.rooted
    exact ⟨rest ++ [f], by rw [hloaded', hrest]; rfl⟩
  · intro g hg b hb
    rw [hloaded', List.mem_append] at hg
    rw [hgrants']
    rcases hg with hg | hg
    · exact EffectiveGrants.get?_record_old (h.recorded g hg b hb)
    · rw [List.mem_singleton.mp hg] at hb ⊢
      rw [EffectiveGrants.get?_record_new, hb]
      · rfl
      · intro e he hpath
        exact hseen (hpath ▸ h.known e he)
  · intro e he
    rw [hseen']
    rw [hgrants'] at he
    rcases EffectiveGrants.mem_record he with he | he
    · exact List.mem_append_left _ (h.known e he)
    · exact List.mem_append_right _ (List.mem_singleton.mpr he)
  · intro q hq
    rw [hloaded']
    rw [hqueue', List.mem_append] at hq
    rcases hq with hq | hq
    · obtain ⟨g, hg, hrest⟩ := h.queued q (hqueue ▸ List.mem_cons_of_mem _ hq)
      exact ⟨g, hgrow g hg, hrest⟩
    · exact ⟨f, List.mem_append_right _ (List.mem_singleton_self f), hq⟩
  · intro g hg q hq
    rw [hloaded'] at hg ⊢
    rw [hqueue', List.mem_append]
    rcases List.mem_append.mp hg with hg | hg
    · rcases h.followed g hg q hq with hmem | hmem
      · rw [hqueue, List.mem_cons] at hmem
        rcases hmem with rfl | hmem
        · exact Or.inr hdelivered
        · exact Or.inl (Or.inl hmem)
      · exact Or.inr (hmem.mono hgrow)
    · rw [List.mem_singleton.mp hg] at hq
      exact Or.inl (Or.inr hq)

/-- Every round of the walk keeps the invariant. -/
theorem Walked.step {running : Option String} {t t' : Traversal} (h : Walked machine format root t)
    (hstep : traverseStep machine format running root.path t = .ok (.inl t')) :
    Walked machine format root t' := by
  unfold traverseStep at hstep
  cases hqueue : t.queue with
  | nil =>
      rw [hqueue] at hstep
      cases hstep
  | cons p queue =>
      rw [hqueue] at hstep
      simp only at hstep
      cases hvisit : visitEntry machine format running root.path { t with queue := queue } p with
      | error e =>
          rw [hvisit] at hstep
          cases hstep
      | ok t'' =>
          rw [hvisit] at hstep
          cases hstep
          obtain ⟨resolved, hfollowed, hclones, hcloned, hcase⟩ :=
            visitEntry_cases (t := { t with queue := queue })
            h.clones hvisit
          rcases hcase with
              ⟨hseen, hseen', hgrants', hqueue', hloaded', hgrants⟩ |
              ⟨hseen, f, rfl, hboundary, hparse, hseen', hgrants', hqueue', hloaded'⟩
          · exact h.seenBefore hqueue hfollowed hclones hcloned hseen hseen' hgrants'
              hqueue' hloaded' hgrants
          · exact h.readNow hqueue hfollowed hclones hcloned hseen hseen' hgrants'
              hqueue' hloaded' hboundary
              hparse

/-- Where the walk ends, the invariant holds and no entry is left. -/
theorem walked_traverse {running : Option String} {rounds : ℕ} {t : Traversal}
    (hroot : root.boundary = none)
    (h : traverse machine format running rounds root = some (.ok t)) :
    Walked machine format root t ∧ t.queue = [] := by
  have hstep : ∀ s s', Walked machine format root s →
      traverseStep machine format running root.path s = .ok (.inl s') →
        Walked machine format root s' :=
    fun s s' hs => hs.step
  obtain ⟨s, hs, hlast⟩ := Loop.run_end hstep (walked_start hroot) h
  unfold traverseStep at hlast
  split at hlast
  · next hqueue =>
      cases hlast
      exact ⟨hs, hqueue⟩
  · next p queue hqueue =>
      cases hvisit : visitEntry machine format running root.path { s with queue := queue } p <;>
        rw [hvisit] at hlast <;> cases hlast

end invariant

end Ratect
