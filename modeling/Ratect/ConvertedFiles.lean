import Ratect.Binds
import Ratect.ConversionOutcome

/-! # The files that a conversion writes

What the machine holds once the converted files are written (`Machine.Wrote`), and what a native
load finds in place of each file of the source's: the converted one of an owned file, and a bundle's
file itself (`counterpart`).  A converted file stands beside its source under another name
(`Rewrite`), and no two loaded files have one counterpart (`Rewritten.injective`). -/

namespace Ratect

open Paths (Path)

/-- The machine once the converted files are written, with nothing else changed. -/
structure Machine.Wrote (machine machine' : Machine) (files : List ConvertedFile) : Prop where
  currentDir : machine'.currentDir = machine.currentDir
  homeDirectory : machine'.homeDirectory = machine.homeDirectory
  ensureCached : machine'.ensureCached = machine.ensureCached
  isFile : ∀ p, machine'.isFile p = true ↔
    machine.isFile p = true ∨ p ∈ files.map ConvertedFile.target
  canonicalize : ∀ p q, machine.canonicalize p = .ok q → machine'.canonicalize p = .ok q
  readYaml : ∀ p, p ∉ files.map ConvertedFile.target → machine'.readYaml p = machine.readYaml p
  readToml : ∀ c ∈ files, machine'.readToml c.target = .ok c.readBack

/-- Two machines that resolve paths alike, the second with more files. -/
structure Machine.Extends (machine machine' : Machine) : Prop where
  currentDir : machine'.currentDir = machine.currentDir
  homeDirectory : machine'.homeDirectory = machine.homeDirectory
  ensureCached : machine'.ensureCached = machine.ensureCached
  isFile : ∀ p, machine.isFile p = true → machine'.isFile p = true
  canonicalize : ∀ p q, machine.canonicalize p = .ok q → machine'.canonicalize p = .ok q

/-- What a native load finds in place of a loaded file. -/
def counterpart (files : List ConvertedFile) (f : LoadedFile) : LoadedFile :=
  match f.boundary, files.find? fun c => c.source = f.path with
  | none, some c => ⟨c.target, c.readBack, none⟩
  | _, _ => f

/-- The converted file of an owned one. -/
structure Rewrite (machine machine' : Machine) (unicode : Char → Bool) (loaded : LoadedConfig)
    (f g : LoadedFile) :
    Prop where
  boundary : g.boundary = none
  target : loaded.targets.get? f.path = some g.path
  beside : ∃ dir n m, f.path = dir ++ [.normal n] ∧ g.path = dir ++ [.normal m] ∧ m.text ≠ ['~'] ∧
    ('\x00' ∈ m.text → '\x00' ∈ n.text)
  format : configFileFormat g.path = some .toml
  isFile : machine'.isFile g.path = true
  readToml : machine'.readToml g.path = .ok g.file
  includes : List.Forall₂ (fun entry entry' => ∃ checks,
    convertInclude machine loaded loaded.targets f.path entry = .ok (entry', checks))
      f.file.includes g.file.includes
  containers : ∃ containers,
    f.file.containers.mapEntriesM (convertedContainer unicode) = .ok containers ∧
    g.file.containers = (containers.mapEntries fun _ container => container.readBack).sorted
  tasks : g.file.tasks = (f.file.tasks.mapEntries fun _ task => task.readBack).sorted
  configVariables : g.file.configVariables = f.file.configVariables.map IndexMap.sorted
  forbidTelemetry : g.file.forbidTelemetry = f.file.forbidTelemetry

/-- What stands in place of the loaded files. -/
structure Rewritten (machine machine' : Machine) (unicode : Char → Bool) (loaded : LoadedConfig)
    (root : LoadedFile) (native : LoadedFile → LoadedFile) : Prop where
  machines : machine.Extends machine'
  isFile : ∀ p, machine'.isFile p = true → machine.isFile p = true ∨
    ∃ f ∈ loaded.ownedFiles, (native f).path = p
  readYaml : ∀ p, (∀ f ∈ loaded.ownedFiles, (native f).path ≠ p) →
    machine'.readYaml p = machine.readYaml p
  distinct : (loaded.targets.map Prod.snd).Nodup
  bundle : ∀ f ∈ loaded.files, f.boundary.isSome = true → native f = f
  owned : ∀ f ∈ loaded.ownedFiles, Rewrite machine machine' unicode loaded f (native f)
  projectName : (native root).file.projectName = some loaded.config.projectName
  rootOnly : ∀ f ∈ loaded.ownedFiles, f ≠ root →
    (native f).file.projectName = none ∧ (native f).file.ratectVersion = none

variable {machine machine' : Machine} {unicode : Char → Bool} {root : LoadedFile}
    {loaded : LoadedConfig} {render : Document → Option String → Except String Text}
    {writtenFor : String} {files : List ConvertedFile}

theorem Machine.Wrote.extends (h : machine.Wrote machine' files) : machine.Extends machine' where
  currentDir := h.currentDir
  homeDirectory := h.homeDirectory
  ensureCached := h.ensureCached
  isFile := fun p hp => (h.isFile p).mpr (Or.inl hp)
  canonicalize := h.canonicalize

/-! ### Beside its source -/

theorem rooted_dir {dir : Path} {n : Paths.Name} (h : Paths.Rooted (dir ++ [.normal n])) :
    Paths.Rooted dir := by
  obtain ⟨names, hnames⟩ := h
  cases names using List.reverseRecOn with
  | nil =>
      have hlast := congrArg List.getLast? hnames
      rw [List.getLast?_concat] at hlast
      cases hlast
  | append_singleton names m =>
      rw [List.map_append, List.map_singleton, ← List.cons_append] at hnames
      exact ⟨names, (List.append_inj' hnames rfl).1⟩

/-- A target stands beside its source, under a name that no `~` and no zero byte gets into. -/
theorem beside_target {source target : Path} (hrooted : Paths.Rooted source)
    (hname : (Paths.fileName source).isSome)
    (htarget : target = rootTarget source ∨ target = Paths.withTomlExtension source) :
    ∃ dir n m, source = dir ++ [.normal n] ∧ target = dir ++ [.normal m] ∧ m.text ≠ ['~'] ∧
      ('\x00' ∈ m.text → '\x00' ∈ n.text) := by
  obtain ⟨n, hn⟩ := Option.isSome_iff_exists.mp hname
  obtain ⟨dir, rfl⟩ := Paths.fileName_eq_some.mp hn
  rcases htarget with rfl | rfl
  · refine ⟨dir, n, nativeConfigFile, rfl, ?_, by decide, fun h => absurd h (by decide)⟩
    unfold rootTarget
    rw [Paths.parent_concat]
    exact (rooted_dir hrooted).join nativeConfigFile
  · refine ⟨dir, n, n.toml, rfl, Paths.withTomlExtension_concat dir n, Paths.toml_ne_tilde n, ?_⟩
    intro h
    rcases List.mem_append.mp h with h | h
    · exact n.stem_subset h
    · exact absurd h (by decide)

theorem format_of_toml {dir : Path} {m : Paths.Name}
    (h : Paths.withTomlExtension (dir ++ [.normal m]) = dir ++ [.normal m]) :
    configFileFormat (dir ++ [.normal m]) = some .toml := by
  rw [Paths.withTomlExtension_concat] at h
  unfold configFileFormat
  rw [← h, Paths.extension_toml]
  rfl

/-! ### The counterparts of a conversion -/

theorem targets_get?_of_mem (h : Found machine root loaded) {e : Path × Path}
    (he : e ∈ loaded.targets) : loaded.targets.get? e.1 = some e.2 := by
  have hsome : (loaded.targets.get? e.1).isSome = true :=
    Targets.get?_isSome.mpr (List.mem_map_of_mem he)
  obtain ⟨target, htarget⟩ := Option.isSome_iff_exists.mp hsome
  have hnodup : (loaded.targets.map Prod.fst).Nodup := targets_sources loaded ▸ h.owned_nodup
  have heq := List.inj_on_of_nodup_map hnodup (Targets.get?_mem htarget) he rfl
  rw [htarget, ← heq]

/-- The converted file of each owned one, from the files that were converted. -/
theorem rewrite_of_convertFile (h : Found machine root loaded)
    (hrooted : ∀ f ∈ loaded.files, Paths.Rooted f.path) (hroot : (Paths.fileName root.path).isSome)
    (hwrote : machine.Wrote machine' files) (htargets : checkTargets [] loaded.targets = .ok ())
    {placed : List (Path × ConversionCheck)} {isRoot : Bool} {f : LoadedFile} {target : Path}
    {c : ConvertedFile} (hf : f ∈ loaded.ownedFiles) (hpair : (f.path, target) ∈ loaded.targets)
    (htarget : f = root ∧ target = rootTarget f.path ∨ target = Paths.withTomlExtension f.path)
    (hc : convertFile machine loaded unicode render writtenFor loaded.targets placed isRoot
      (f, target) = .ok c)
    (hmem : c ∈ files) :
    Rewrite machine machine' unicode loaded f ⟨c.target, c.readBack, none⟩ := by
  obtain ⟨entries, containers, toml, hentries, hcontainers, rfl⟩ := convertFile_ok hc
  obtain ⟨hne, -, -⟩ := checkTargets_ok htargets
  have hname : (Paths.fileName f.path).isSome := by
    rcases htarget with ⟨rfl, -⟩ | rfl
    · exact hroot
    · rw [Option.isSome_iff_ne_none]
      intro hnone
      refine hne _ hpair ?_
      show Paths.withTomlExtension f.path = f.path
      unfold Paths.withTomlExtension
      rw [hnone]
  have hbeside := beside_target (hrooted f (mem_owned.mp hf).1) hname (htarget.imp_left And.right)
  refine ⟨rfl, targets_get?_of_mem h hpair, hbeside, ?_, ?_, hwrote.readToml _ hmem, ?_,
    ⟨containers, hcontainers, rfl⟩,
    rfl, rfl, rfl⟩
  · obtain ⟨dir, _, m, -, hm, -⟩ := hbeside
    have htoml : Paths.withTomlExtension target = target := targets_toml hpair
    show configFileFormat target = _
    rw [hm] at htoml ⊢
    exact format_of_toml htoml
  · rw [hwrote.isFile]
    exact Or.inr (List.mem_map_of_mem hmem)
  · show List.Forall₂ _ f.file.includes (entries.map Prod.fst)
    rw [List.forall₂_map_right_iff]
    exact (Except.mapM_eq_ok.mp hentries).imp fun entry r hr => ⟨r.2, hr⟩

/-- What stands in place of the files that a conversion has converted. -/
theorem rewritten_of_convert (h : Found machine root loaded)
    (hrooted : ∀ f ∈ loaded.files, Paths.Rooted f.path) (hroot : (Paths.fileName root.path).isSome)
    (hwrote : machine.Wrote machine' files)
    (hconvert : convertProject machine loaded unicode render writtenFor = .ok files) :
    Rewritten machine machine' unicode loaded root (counterpart files) := by
  have hanswers := answers_of_ok h hconvert
  obtain ⟨first, includes, placed, file, rest, howned, htargets, -, hfile, hrest, rfl⟩ :=
    convertProject_ok hconvert
  obtain ⟨includes', howned'⟩ := h.owned_rooted
  obtain ⟨rfl, rfl⟩ := List.cons.inj (howned.symm.trans howned')
  have hsources : ((file :: rest).map ConvertedFile.source).Nodup :=
    hanswers.sources ▸ h.owned_nodup
  -- The file that stands for an owned one is the one whose source it is.
  have hcounterpart : ∀ f ∈ loaded.ownedFiles, ∀ c ∈ file :: rest, c.source = f.path →
      counterpart (file :: rest) f = ⟨c.target, c.readBack, none⟩ := by
    intro f hf c hc hsource
    unfold counterpart
    rw [(mem_owned.mp hf).2]
    cases hfind : (file :: rest).find? fun c => c.source = f.path with
    | none =>
        have hne := List.find?_eq_none.mp hfind c hc
        simp [hsource] at hne
    | some c' =>
        have hsource' : c'.source = f.path := by simpa using List.find?_some hfind
        have heq :=
          List.inj_on_of_nodup_map hsources (List.mem_of_find?_eq_some hfind) hc
            (hsource'.trans hsource.symm)
        rw [heq]
  have hfirst : first ∈ loaded.ownedFiles := howned ▸ List.mem_cons_self
  have hrootPair : (first.path, rootTarget first.path) ∈ loaded.targets := by
    unfold LoadedConfig.targets
    rw [howned]
    exact List.mem_cons_self
  have hpair : ∀ f ∈ includes, (f.path, Paths.withTomlExtension f.path) ∈ loaded.targets := by
    intro f hf
    unfold LoadedConfig.targets
    rw [howned, targetsOf, List.map_cons, List.zip_cons_cons, List.zip_map']
    exact List.mem_cons_of_mem
      _ (List.mem_map_of_mem (f := fun f => (f.path, Paths.withTomlExtension f.path)) hf)
  have hinclude : ∀ f ∈ includes, ∃ c ∈ rest,
      convertFile machine loaded unicode render writtenFor loaded.targets placed false
        (f, Paths.withTomlExtension f.path) = .ok c := by
    intro f hf
    obtain ⟨c, hc, hconvert⟩ := IndexMap.exists_of_forall₂ hrest.flip hf
    exact ⟨c, hc, hconvert⟩
  have hsource : ∀ {isRoot f target c},
      convertFile machine loaded unicode render writtenFor loaded.targets placed isRoot
      (f, target) = .ok c → c.source = f.path := by
    intro isRoot f target c hc
    obtain ⟨_, _, _, -, -, rfl⟩ := convertFile_ok hc
    rfl
  have hfirstIs := hcounterpart first hfirst file List.mem_cons_self (hsource hfile)
  have hrewrite : ∀ f ∈ loaded.ownedFiles,
      Rewrite machine machine' unicode loaded f (counterpart (file :: rest) f) := by
    intro f hf
    rw [howned, List.mem_cons] at hf
    rcases hf with rfl | hf
    · rw [hfirstIs]
      exact rewrite_of_convertFile h hrooted hroot hwrote htargets hfirst hrootPair
        (Or.inl ⟨rfl, rfl⟩) hfile
        List.mem_cons_self
    · obtain ⟨c, hc, hconvert⟩ := hinclude f hf
      have hf' : f ∈ loaded.ownedFiles := howned ▸ List.mem_cons_of_mem _ hf
      rw [hcounterpart f hf' c (List.mem_cons_of_mem _ hc) (hsource hconvert)]
      exact rewrite_of_convertFile h hrooted hroot hwrote htargets hf' (hpair f hf)
        (Or.inr rfl) hconvert
        (List.mem_cons_of_mem _ hc)
  have htable : loaded.targets.map Prod.snd = (file :: rest).map ConvertedFile.target := by
    rw [hanswers.targets]
    refine List.map_snd_zip ?_
    rw [length_targetsOf, List.length_map]
  have hwritten : ∀ p ∈ (file :: rest).map ConvertedFile.target,
      ∃ f ∈ loaded.ownedFiles, (counterpart (file :: rest) f).path = p := by
    intro p hp
    rw [← htable] at hp
    obtain ⟨e, he, rfl⟩ := List.mem_map.mp hp
    have hkey : e.1 ∈ loaded.ownedFiles.map LoadedFile.path :=
      targets_sources loaded ▸ List.mem_map_of_mem he
    obtain ⟨f, hf, hpath⟩ := List.mem_map.mp hkey
    have htarget := (hrewrite f hf).target
    rw [hpath, targets_get?_of_mem h he] at htarget
    exact ⟨f, hf, (Option.some.inj htarget).symm⟩
  refine ⟨hwrote.extends, ?_, ?_, htable ▸ hanswers.distinct, ?_, hrewrite, ?_, ?_⟩
  · intro p hp
    exact ((hwrote.isFile p).mp hp).imp_right (hwritten p)
  · intro p hp
    apply hwrote.readYaml
    intro hmem
    obtain ⟨f, hf, hpath⟩ := hwritten p hmem
    exact hp f hf hpath
  · intro f _ hboundary
    obtain ⟨b, hb⟩ := Option.isSome_iff_exists.mp hboundary
    unfold counterpart
    rw [hb]
  · rw [hfirstIs]
    obtain ⟨_, _, _, -, -, rfl⟩ := convertFile_ok hfile
    rfl
  · intro f hf hne
    rw [howned, List.mem_cons] at hf
    obtain ⟨c, hc, hconvert⟩ := hinclude f (hf.resolve_left hne)
    rw [hcounterpart f (howned ▸ List.mem_cons_of_mem _ (hf.resolve_left hne)) c
      (List.mem_cons_of_mem _ hc)
      (hsource hconvert)]
    obtain ⟨_, _, _, -, -, rfl⟩ := convertFile_ok hconvert
    exact ⟨rfl, rfl⟩

section rewritten

variable {native : LoadedFile → LoadedFile}

theorem Rewritten.boundary (h : Rewritten machine machine' unicode loaded root native)
    {f : LoadedFile} (hf : f ∈ loaded.files) : (native f).boundary = f.boundary := by
  cases hboundary : f.boundary with
  | none => exact (h.owned f (mem_owned.mpr ⟨hf, hboundary⟩)).boundary
  | some b => rw [h.bundle f hf (by rw [hboundary]; rfl), hboundary]

/-- Where a bundle's files are YAML files, no two loaded files have one counterpart. -/
theorem Rewritten.injective (h : Rewritten machine machine' unicode loaded root native)
    (hfound : Found machine root loaded)
    (hyaml : ∀ f ∈ loaded.files, f.boundary.isSome = true → configFileFormat f.path = some .yaml)
    {f g : LoadedFile} (hf : f ∈ loaded.files) (hg : g ∈ loaded.files)
    (hpath : (native f).path = (native g).path) : f = g := by
  have hapart : ∀ f ∈ loaded.files, ∀ g ∈ loaded.files,
      f.boundary = none → g.boundary.isSome = true →
      (native f).path ≠ (native g).path := by
    intro f hf g hg hfowned hgbundle heq
    have htoml := (h.owned f (mem_owned.mpr ⟨hf, hfowned⟩)).format
    rw [heq, h.bundle g hg hgbundle, hyaml g hg hgbundle] at htoml
    cases htoml
  cases hfb : f.boundary with
  | none =>
      cases hgb : g.boundary with
      | none =>
          have htf := Targets.get?_mem (h.owned f (mem_owned.mpr ⟨hf, hfb⟩)).target
          have htg := Targets.get?_mem (h.owned g (mem_owned.mpr ⟨hg, hgb⟩)).target
          have hpair := List.inj_on_of_nodup_map h.distinct htf htg hpath
          exact hfound.tree.path_unique hf hg (congrArg Prod.fst hpair)
      | some b => exact absurd hpath (hapart f hf g hg hfb (by rw [hgb]; rfl))
  | some b =>
      cases hgb : g.boundary with
      | none => exact absurd hpath.symm (hapart g hg f hf hgb (by rw [hfb]; rfl))
      | some b' =>
          rw [h.bundle f hf (by rw [hfb]; rfl), h.bundle g hg (by rw [hgb]; rfl)] at hpath
          exact hfound.tree.path_unique hf hg hpath

end rewritten

end Ratect
