import Ratect.IncludeInvariant

/-! # The include graph

An include graph has the files as its nodes and an edge for every entry, to the file the entry
points to; boundaries play no part in it.  A load that succeeds has loaded exactly the files that
the root reaches (`LoadedTree.mem_iff_reaches`), each of them once, and every file but the root
arrived from one loaded before it. -/

namespace Ratect

open Paths (Path)
open Transition (Logged)

section graph

variable (machine : Machine) (format : ConfigFormat) (root : LoadedFile)

/-- What a file holds; the root is read by the path it was given by. -/
def contentsAt (path : Path) : Option ConfigFile :=
  if path = root.path then some root.file else (format.parse machine path none).toOption

/-- An entry of the file at `p` points to `q`. -/
def IncludeEdge (p q : Path) : Prop :=
  ∃ file, contentsAt machine format root p = some file ∧ ∃ entry ∈ file.includes,
    entryTarget machine format p entry = some q

/-- There is a chain of includes. -/
abbrev IncludeReaches : Path → Path → Prop :=
  Relation.ReflTransGen (IncludeEdge machine format root)

/-- The files that a walk has loaded so far. -/
structure LoadedPart (files : List LoadedFile) : Prop where
  owned : root.boundary = none
  rooted : ∃ rest, files = root :: rest
  nodup : (files.map LoadedFile.path).Nodup
  arrived : Logged (Arrived machine format root) files

/-- The files of a load that succeeded: every entry led to one of them. -/
structure LoadedTree (files : List LoadedFile) :
    Prop extends LoadedPart machine format root files where
  delivered : ∀ d ∈ files, ∀ entry ∈ d.file.includes, ∃ f ∈ files,
    Followed machine format d.path d.boundary entry f.path ∧
      f.Keeps (carriedBoundary machine d.boundary entry)

variable {machine format root} {files : List LoadedFile}

theorem Walked.part {t : Traversal} (h : Walked machine format root t)
    (hroot : root.boundary = none) :
    LoadedPart machine format root t.loaded where
  owned := hroot
  rooted := h.rooted
  nodup := h.seen ▸ h.nodup
  arrived := h.arrived

theorem Walked.tree {t : Traversal} (h : Walked machine format root t)
    (hroot : root.boundary = none) (hqueue : t.queue = []) :
    LoadedTree machine format root t.loaded where
  toLoadedPart := h.part hroot
  delivered := by
    intro d hd entry hentry
    have hp : (⟨d.path, d.boundary, entry⟩ : Pending) ∈ d.pending := List.mem_map_of_mem hentry
    rcases h.followed d hd _ hp with hmem | hdelivered
    · rw [hqueue] at hmem
      cases hmem
    · exact hdelivered

namespace LoadedPart

theorem root_mem (h : LoadedPart machine format root files) : root ∈ files := by
  obtain ⟨rest, rfl⟩ := h.rooted
  exact List.mem_cons_self

/-- Two loaded files with one path are the same. -/
theorem path_unique (h : LoadedPart machine format root files) {f g : LoadedFile} (hf : f ∈ files)
    (hg : g ∈ files) (hpath : f.path = g.path) : f = g :=
  List.inj_on_of_nodup_map h.nodup hf hg hpath

/-- A loaded file is the root or arrived from another one. -/
theorem arrival (h : LoadedPart machine format root files) {f : LoadedFile} (hf : f ∈ files) :
    f = root ∨ ∃ d ∈ files, ∃ entry ∈ d.file.includes,
      Followed machine format d.path d.boundary entry f.path ∧
        f.boundary = carriedBoundary machine d.boundary entry ∧
        format.parse machine f.path none = .ok f.file := by
  obtain ⟨before, rest, hsplit⟩ := List.append_of_mem hf
  rcases h.arrived before f rest hsplit with ⟨-, hroot⟩ | ⟨d, hd, hrest⟩
  · exact Or.inl hroot
  · exact Or.inr ⟨d, hsplit ▸ List.mem_append_left _ hd, hrest⟩

theorem contents (h : LoadedPart machine format root files) {f : LoadedFile} (hf : f ∈ files) :
    contentsAt machine format root f.path = some f.file := by
  unfold contentsAt
  split
  · next hpath => rw [h.path_unique hf h.root_mem hpath]
  · next hpath =>
      rcases h.arrival hf with rfl | ⟨_, _, _, _, _, _, hparse⟩
      · exact absurd rfl hpath
      · rw [hparse]
        rfl

theorem edge (h : LoadedPart machine format root files) {d : LoadedFile} (hd : d ∈ files)
    {entry : IncludeEntry} (hentry : entry ∈ d.file.includes) {q : Path}
    (htarget : entryTarget machine format d.path entry = some q) :
    IncludeEdge machine format root d.path q :=
  ⟨d.file, h.contents hd, entry, hentry, htarget⟩

/-- What the root has, and an entry hands on to the file that arrives through it, every file has. -/
theorem induction {R : LoadedFile → Prop}
    (h : LoadedPart machine format root files) (hroot : R root)
    (hnext : ∀ d ∈ files, ∀ f ∈ files, ∀ entry ∈ d.file.includes,
      Followed machine format d.path d.boundary entry f.path →
        f.boundary = carriedBoundary machine d.boundary entry → R d → R f) : ∀ f ∈ files, R f := by
  -- An entry of the log is judged with the entries before it, which are loaded files too.
  have hsub : Logged (fun before f => (∀ d ∈ before, d ∈ files) ∧ f ∈ files ∧
      Arrived machine format root before f) files := by
    intro before f rest hsplit
    refine ⟨fun d hd => hsplit ▸ List.mem_append_left _ hd, ?_, h.arrived before f rest hsplit⟩
    rw [hsplit]
    exact List.mem_append_right _ List.mem_cons_self
  refine hsub.induction ?_
  rintro before f ⟨hbefore, hf, ⟨-, rfl⟩ | ⟨d, hd, entry, hentry, hfollowed, hboundary, -⟩⟩ ih
  · exact hroot
  · exact hnext d (hbefore d hd) f hf entry hentry hfollowed hboundary (ih d hd)

theorem reaches (h : LoadedPart machine format root files) :
    ∀ f ∈ files, IncludeReaches machine format root root.path f.path := by
  refine h.induction .refl ?_
  intro d hd f _ entry hentry hfollowed _ ih
  exact ih.tail (h.edge hd hentry hfollowed.target)

end LoadedPart

/-- A load that succeeds has loaded the files that the root reaches, and no other. -/
theorem LoadedTree.mem_iff_reaches (h : LoadedTree machine format root files) (q : Path) :
    q ∈ files.map LoadedFile.path ↔ IncludeReaches machine format root root.path q := by
  constructor
  · intro hq
    obtain ⟨f, hf, rfl⟩ := List.mem_map.mp hq
    exact h.reaches f hf
  · intro hq
    induction hq with
    | refl => exact List.mem_map_of_mem h.root_mem
    | tail _ hedge ih =>
        obtain ⟨d, hd, rfl⟩ := List.mem_map.mp ih
        obtain ⟨file, hfile, entry, hentry, htarget⟩ := hedge
        rw [h.contents hd, Option.some.injEq] at hfile
        obtain ⟨f, hf, hfollowed, -⟩ := h.delivered d hd entry (hfile ▸ hentry)
        rw [hfollowed.target, Option.some.injEq] at htarget
        rw [← htarget]
        exact List.mem_map_of_mem hf

end graph

/-! ### From a load to its tree -/

section load

variable {machine : Machine} {format : ConfigFormat} {running : Option String}

theorem readRoot_ok {path : Path} {root : LoadedFile}
    (h : readRoot machine format path = .ok root) :
    root.boundary = none ∧ absolutePath machine path = .ok root.path ∧
      format.parse machine path none = .ok root.file := by
  unfold readRoot at h
  obtain ⟨absolute, habsolute, h⟩ := Except.bind_eq_ok.mp h
  obtain ⟨file, hfile, h⟩ := Except.bind_eq_ok.mp h
  obtain ⟨_, -, h⟩ := Except.bind_eq_ok.mp h
  cases h
  exact ⟨rfl, habsolute, hfile⟩

theorem loadFrom_ok {rounds : ℕ} {root : LoadedFile} {loaded : LoadedConfig}
    (h : loadFrom machine format running rounds root = some (.ok loaded)) :
    ∃ t, traverse machine format running rounds root = some (.ok t) ∧
      finishLoad machine format running root t = .ok loaded := by
  unfold loadFrom at h
  obtain ⟨walked, hwalked, h⟩ := Option.map_eq_some_iff.mp h
  obtain ⟨t, rfl, h⟩ := Except.bind_eq_ok.mp h
  exact ⟨t, hwalked, h⟩

theorem finishLoad_files {root : LoadedFile} {t : Traversal} {loaded : LoadedConfig}
    (h : finishLoad machine format running root t = .ok loaded) :
    loaded.files = t.loaded ∧ loaded.gitClones = t.gitRepoPaths := by
  unfold finishLoad at h
  obtain ⟨_, -, h⟩ := Except.bind_eq_ok.mp h
  obtain ⟨_, -, h⟩ := Except.bind_eq_ok.mp h
  obtain ⟨_, -, h⟩ := Except.bind_eq_ok.mp h
  obtain ⟨_, -, h⟩ := Except.bind_eq_ok.mp h
  obtain ⟨_, -, h⟩ := Except.bind_eq_ok.mp h
  cases h
  exact ⟨rfl, rfl⟩

/-- The files of a load from a root that the owner wrote. -/
theorem loadFrom_tree {rounds : ℕ} {root : LoadedFile} {loaded : LoadedConfig}
    (hroot : root.boundary = none)
    (h : loadFrom machine format running rounds root = some (.ok loaded)) :
    LoadedTree machine format root loaded.files := by
  obtain ⟨t, ht, hfinish⟩ := loadFrom_ok h
  obtain ⟨hwalked, hqueue⟩ := walked_traverse hroot ht
  rw [(finishLoad_files hfinish).1]
  exact hwalked.tree hroot hqueue

/-- A load is the reading of the root file and the load from it. -/
theorem loadFromFile_ok {rounds : ℕ} {path : Path} {loaded : LoadedConfig}
    (h : loadFromFile machine format running rounds path = some (.ok loaded)) :
    ∃ root, readRoot machine format path = .ok root ∧ root.boundary = none ∧
      loadFrom machine format running rounds root = some (.ok loaded) := by
  unfold loadFromFile at h
  split at h
  · cases h
  · next root hroot => exact ⟨root, hroot, (readRoot_ok hroot).1, h⟩

end load

end Ratect
