import Ratect.EntryLock

/-! # What every call leaves true of the cache

`Permitted` says once what a caller's call may do to the disk where the caller stands.  What it
changes of each part of the disk follows from it, and with it that no caller's call breaks what
another caller relies on.  `Sound` is the invariant of every run. -/

namespace Ratect.GitInclude

open Transition (Reachable)

variable {sha256 : List UInt8 → Digest}

/-! ### Names -/

@[simp] theorem length_cacheKey (source : Source) : (cacheKey sha256 source).length = 64 := by
  rw [cacheKey, Framing.length_hex, (sha256 source.message).length_bytes]

theorem lockName_inj {key key' : Text} : lockName key = lockName key' ↔ key = key' :=
  List.append_left_inj _

theorem stagingName_inj {key key' unique unique' : Text} (hlength : key.length = key'.length) :
    stagingName key unique = stagingName key' unique' ↔ key = key' ∧ unique = unique' := by
  constructor
  · intro h
    obtain ⟨hkey, hunique⟩ := List.append_inj h (by simp [hlength])
    exact ⟨List.append_cancel_right hkey, hunique⟩
  · rintro ⟨rfl, rfl⟩
    rfl

theorem lockName_ne_stagingName {key key' unique : Text} (hlength : key.length = key'.length) :
    lockName key ≠ stagingName key' unique := by
  intro h
  rw [lockName, stagingName, List.append_assoc] at h
  obtain ⟨-, h⟩ := List.append_inj h hlength
  simp [stagingInfix] at h

theorem ne_lockName {key key' : Text} (hlength : key.length = key'.length) :
    key ≠ lockName key' := by
  intro h
  have := congrArg List.length h
  simp [lockName] at this
  omega

theorem ne_stagingName {key key' unique : Text} (hlength : key.length = key'.length) :
    key ≠ stagingName key' unique := by
  intro h
  have := congrArg List.length h
  simp [stagingName, stagingInfix] at this
  omega

/-- What `remove_staging_directories` removes is a staging directory of its own key. -/
theorem exists_stagingName {key name : Text} (h : key ++ stagingInfix <+: name) :
    ∃ unique, name = stagingName key unique := by
  obtain ⟨unique, rfl⟩ := h
  exact ⟨unique, rfl⟩

/-! ### Where a caller stands -/

namespace Stage

/-- The file it holds the entry lock by: from its creation, or from the marker found on it under its
OS lock, until its removal. -/
def holds : Stage → Option ℕ
  | .created file | .marking file | .remarking file | .holding file _ => some file
  | _ => none

/-- The file whose OS lock it has. -/
def osLocked : Stage → Option ℕ
  | .marking file | .locked file | .verified file | .remarking file | .dropping file _ => some file
  | _ => none

/-- The file it has open. -/
def file : Stage → Option ℕ
  | .created file | .marking file | .opened file | .locked file | .verified file | .remarking file
  | .dropping file _ | .holding file _ | .closing file _ => some file
  | _ => none

/-- The file whose OS lock it can have. -/
def mayLock : Stage → Option ℕ
  | .marking file | .locked file | .verified file | .remarking file
  | .dropping file _ | .holding file _ | .closing file _ => some file
  | _ => none

/-- The unique name of its staging directory. -/
def unique : Stage → Option Text
  | .holding _ (.cloning unique) | .holding _ (.renaming unique) | .holding _ (.discarding unique _)
  | .orphaned unique => some unique
  | _ => none

theorem file_of_holds {stage : Stage} {f : ℕ} (h : stage.holds = some f) : stage.file = some f := by
  cases stage <;> first | exact h | cases h

theorem file_of_osLocked {stage : Stage} {f : ℕ} (h : stage.osLocked = some f) :
    stage.file = some f := by
  cases stage <;> first | exact h | cases h

end Stage

/-- What holds of a caller wherever it stands. -/
structure Caller.Sound (key : Text) (disk : Disk) (p : ℕ) (c : Caller) : Prop where
  file_lt : ∀ f, c.stage.file = some f → f < disk.inodes
  osLocked : ∀ f, c.stage.osLocked = some f → disk.osLocks f = some p
  held : ∀ f, c.stage.holds = some f → disk.root (lockName key) = some (.file f)
  unmarked : ∀ f, c.stage = .created f → ¬ disk.Marked f
  covered : ∀ f, c.stage.holds = some f → disk.Marked f → disk.osLocks f = some p
  verified : ∀ f, c.stage = .verified f → disk.Marked f → disk.root (lockName key) = some (.file f)
  removing : ∀ f name, c.stage = .holding f (.removing name) → key ++ stagingInfix <+: name
  staged : ∀ f unique, c.stage = .holding f (.renaming unique) →
    disk.root (stagingName key unique) = some (.directory (.clone c.source p)) ∧
      disk.cloned p = some c.source
  drawn : ∀ unique, c.stage.unique = some unique → unique ∈ disk.drawn

/-- The invariant of every run. -/
structure Sound (sha256 : List UInt8 → Digest) (s : Cache) : Prop where
  callers : ∀ p c, s.callers p = some c → c.Sound (cacheKey sha256 c.source) s.disk p
  one : ∀ p q c d f, s.callers p = some c → s.callers q = some d → c.stage.holds = some f →
    d.stage.holds = some f → p = q
  apart : ∀ p q c d unique, s.callers p = some c → s.callers q = some d →
    c.stage.unique = some unique →
    d.stage.unique = some unique → p = q
  owners : ∀ f p, s.disk.osLocks f = some p → ∃ c, s.callers p = some c ∧ c.stage.mayLock = some f
  locks : ∀ source f,
    s.disk.root (lockName (cacheKey sha256 source)) = some (.file f) → f < s.disk.inodes
  working : ∀ source node, s.disk.root (cacheKey sha256 source) = some node →
    ∃ p clone, node = .directory (.clone clone p) ∧ s.disk.cloned p = some clone ∧
      cacheKey sha256 clone = cacheKey sha256 source
  history : ∀ p source, s.disk.cloned p = some source → ∃ c,
    s.callers p = some c ∧ c.source = source

/-! ### What a call may do -/

/-- What the call of a caller that stands at `stage` may do to the disk. -/
def Permitted (disk : Disk) (key : Text) (p : ℕ) (stage : Stage) : Op → Prop
  | .nothing => True
  | .create name => name = lockName key ∧ disk.root name = none
  | .osLock file => disk.osLocks file = none ∧ stage.file = some file
  | .mark file => stage.holds = some file ∧ disk.osLocks file = some p
  | .close => True
  | .unlink name => name = lockName key ∧ stage.holds.isSome
  | .clear name | .remove name =>
      ∃ unique,
        name = stagingName key unique ∧ stage.holds.isSome ∧ ∀ f u, stage ≠ .holding f (.renaming u)
  | .draw unique => unique ∉ disk.drawn
  | .clone name => ∃ unique, name = stagingName key unique ∧ stage.unique = some unique ∧
      ∀ f u, stage ≠ .holding f (.renaming u)
  | .cloned name => ∃ unique f, name = stagingName key unique ∧ stage = .holding f (.cloning unique)
  | .rename old target => ∃ unique f, old = stagingName key unique ∧ target = key ∧
      stage = .holding f (.renaming unique) ∧ disk.root key = none

theorem attempt_permitted {disk : Disk} {key : Text} {p : ℕ} {c : Caller} (h : c.Sound key disk p)
    {move : Move} {op : Op} {stage : Stage}
    (hnext : attempt disk (lockName key) c.stage move = some (op, stage)) :
    Permitted disk key p c.stage op := by
  unfold attempt at hnext
  split at hnext
  all_goals try split at hnext
  all_goals try split at hnext
  all_goals cases hnext
  all_goals simp_all [Permitted, Stage.holds, Stage.file]
  all_goals exact h.osLocked _ (by simp_all [Stage.osLocked])

theorem holderNext_permitted {disk : Disk} {key : Text} {p file : ℕ} {c : Caller}
    (h : c.Sound key disk p) {progress : Progress} (hstage : c.stage = .holding file progress)
    {move : Move} {op : Op} {stage : Stage}
    (hnext : holderNext disk key file progress move = some (op, stage)) :
    Permitted disk key p c.stage op := by
  unfold holderNext at hnext
  split at hnext
  all_goals try split at hnext
  all_goals cases hnext
  all_goals simp_all [Permitted, Stage.holds, Stage.unique]
  all_goals exact exists_stagingName (h.removing _ _ hstage)

theorem next_permitted {disk : Disk} {key : Text} {p : ℕ} {c : Caller} (h : c.Sound key disk p)
    {move : Move} {op : Op} {stage : Stage}
    (hnext : next disk key c.stage move = some (op, stage)) : Permitted disk key p c.stage op := by
  unfold next at hnext
  split at hnext
  · obtain ⟨_, -, heq⟩ := Option.map_eq_some_iff.mp hnext
    cases heq
    trivial
  · cases hnext
    trivial
  · cases hnext
    trivial
  · next hstage _ => exact holderNext_permitted h hstage hnext
  · cases hnext
    trivial
  · cases hnext
    simp_all [Permitted, Stage.unique]
  · exact attempt_permitted h hnext

/-- Where a call leaves a caller, and from where. -/
structure Transit (disk : Disk) (key : Text) (old : Stage) (op : Op) (new : Stage) : Prop where
  file : ∀ f, new.file = some f → old.file = some f ∨
    op = .create (lockName key) ∧ f = disk.inodes ∨
    disk.root (lockName key) = some (.file f)
  holds : ∀ f, new.holds = some f → old.holds = some f ∧ op ≠ .close ∧ op ≠ .unlink (lockName key) ∨
    new = .created f ∧ op = .create (lockName key) ∧ f = disk.inodes ∨
    old = .verified f ∧ disk.Marked f ∧ op = .nothing
  osLocked : ∀ f, new.osLocked = some f → old.osLocked = some f ∧ op ≠ .close ∨ op = .osLock f
  created : ∀ f, new = .created f → op = .create (lockName key) ∧ f = disk.inodes
  verified : ∀ f,
    new = .verified f → old = .locked f ∧ op = .nothing ∧ disk.root (lockName key) = some (.file f)
  removing : ∀ f name, new = .holding f (.removing name) →
    old = .holding f (.removing name) ∨ key ++ stagingInfix <+: name
  staged : ∀ f unique, new = .holding f (.renaming unique) →
    old = .holding f (.cloning unique) ∧ op = .cloned (stagingName key unique)
  unique : ∀ unique, new.unique = some unique → old.unique = some unique ∨ op = .draw unique
  mayLock : ∀ f, old.mayLock = some f → new.mayLock = some f ∨ op = .close
  locking : ∀ f, op = .osLock f → old = .created f ∧ new = .marking f ∨
    old = .opened f ∧ new = .locked f

theorem attempt_transit {disk : Disk} {key : Text} {old new : Stage} {move : Move} {op : Op}
    (hnext : attempt disk (lockName key) old move = some (op, new)) :
    Transit disk key old op new := by
  unfold attempt at hnext
  split at hnext
  all_goals try split at hnext
  all_goals try split at hnext
  all_goals cases hnext
  all_goals constructor
  all_goals simp_all [Stage.file, Stage.osLocked, Stage.holds, Stage.unique, Stage.mayLock]

theorem holderNext_transit {disk : Disk} {key : Text} {file : ℕ} {progress : Progress} {new : Stage}
    {move : Move} {op : Op} (hnext : holderNext disk key file progress move = some (op, new)) :
    Transit disk key (.holding file progress) op new := by
  unfold holderNext at hnext
  split at hnext
  all_goals try split at hnext
  all_goals cases hnext
  all_goals constructor
  all_goals simp_all [Stage.file, Stage.osLocked, Stage.holds, Stage.unique, Stage.mayLock]

theorem next_transit {disk : Disk} {key : Text} {old new : Stage} {move : Move} {op : Op}
    (hnext : next disk key old move = some (op, new)) : Transit disk key old op new := by
  unfold next at hnext
  split at hnext
  · obtain ⟨stage, hkill, heq⟩ := Option.map_eq_some_iff.mp hnext
    cases heq
    unfold Stage.kill at hkill
    split at hkill
    all_goals cases hkill
    all_goals constructor
    all_goals simp_all [Stage.file, Stage.osLocked, Stage.holds, Stage.unique]
  · cases hnext
    constructor
    all_goals split
    all_goals simp_all [Stage.file, Stage.osLocked, Stage.holds, Stage.unique, Stage.mayLock]
  · cases hnext
    constructor
    all_goals simp_all [Stage.file, Stage.osLocked, Stage.holds, Stage.unique, Stage.mayLock]
  · exact holderNext_transit hnext
  · cases hnext
    constructor
    all_goals simp_all [Stage.file, Stage.osLocked, Stage.holds, Stage.unique, Stage.mayLock]
  · cases hnext
    constructor
    all_goals simp_all [Stage.file, Stage.osLocked, Stage.holds, Stage.unique, Stage.mayLock]
  · exact attempt_transit hnext

/-! ### What a call changes -/

section effect

variable {disk : Disk} {key : Text} {p : ℕ} {source : Source} {stage : Stage} {op : Op}

theorem Permitted.inodes_le (op : Op) : disk.inodes ≤ (op.apply p source disk).inodes := by
  cases op <;> simp [Op.apply]

theorem Permitted.drawn_subset (op : Op) {unique : Text} (h : unique ∈ disk.drawn) :
    unique ∈ (op.apply p source disk).drawn := by
  cases op <;> simp [Op.apply, h]

theorem Permitted.osLocks (h : Permitted disk key p stage op) (f : ℕ) :
    (op.apply p source disk).osLocks f = disk.osLocks f ∨
      disk.osLocks f = none ∧ op = .osLock f ∧ (op.apply p source disk).osLocks f = some p ∨
      disk.osLocks f = some p ∧ op = .close ∧ (op.apply p source disk).osLocks f = none := by
  cases op with
  | osLock file =>
      by_cases hf : f = file
      · subst hf
        exact .inr (.inl ⟨h.1, rfl, by simp [Op.apply]⟩)
      · exact .inl (by simp [Op.apply, hf])
  | close =>
      by_cases hf : disk.osLocks f = some p
      · exact .inr (.inr ⟨hf, rfl, by simp [Op.apply, hf]⟩)
      · exact .inl (by simp [Op.apply, hf])
  | _ => exact .inl rfl

theorem Permitted.osLocks_other (h : Permitted disk key p stage op) {f q : ℕ} (hq : q ≠ p) :
    (op.apply p source disk).osLocks f = some q ↔ disk.osLocks f = some q := by
  rcases h.osLocks f with heq | ⟨hnone, -, hsome⟩ | ⟨hsome, -, hnone⟩
  · rw [heq]
  · simp [hnone, hsome, hq.symm]
  · simp [hnone, hsome, hq.symm]

theorem Permitted.marked (h : Permitted disk key p stage op) {f : ℕ} (hf : f < disk.inodes) :
    ((op.apply p source disk).Marked f ↔ disk.Marked f) ∨
      op = .mark f ∧ stage.holds = some f ∧ disk.osLocks f = some p := by
  cases op with
  | create name =>
      have hne : f ≠ disk.inodes := hf.ne
      exact .inl (by simp [Op.apply, Disk.Marked, hne])
  | mark file =>
      by_cases heq : f = file
      · subst heq
        exact .inr ⟨rfl, h.1, h.2⟩
      · exact .inl (by simp [Op.apply, Disk.Marked, heq])
  | _ => exact .inl Iff.rfl

/-- The names whose entries a call may change. -/
def Op.touches : Op → List Text
  | .create name | .unlink name | .clear name | .remove name | .clone name | .cloned name => [name]
  | .rename old target => [old, target]
  | _ => []

theorem Op.root_of_not_touched {name : Text} (h : name ∉ op.touches) :
    (op.apply p source disk).root name = disk.root name := by
  cases op <;> simp_all [Op.apply, Op.touches]

/-- A caller's call changes its lock's name by a creation or a removal under the lock, a staging
directory that is its own or that it may remove under the lock, or its key by a rename. -/
theorem Permitted.touches (h : Permitted disk key p stage op) {name : Text}
    (hname : name ∈ op.touches) :
    name = lockName key ∧
      (op = .create name ∧ disk.root name = none ∨ op = .unlink name ∧ stage.holds.isSome) ∨
      (∃ unique, name = stagingName key unique ∧
        (stage.unique = some unique ∨
          stage.holds.isSome ∧ ∀ f u, stage ≠ .holding f (.renaming u))) ∨
      name = key ∧ ∃ f unique, stage = .holding f (.renaming unique) ∧
        op = .rename (stagingName key unique) key := by
  cases op with
  | create name' =>
      obtain rfl := List.mem_singleton.mp hname
      exact .inl ⟨h.1, .inl ⟨rfl, h.2⟩⟩
  | unlink name' =>
      obtain rfl := List.mem_singleton.mp hname
      exact .inl ⟨h.1, .inr ⟨rfl, h.2⟩⟩
  | clear name' | remove name' =>
      obtain rfl := List.mem_singleton.mp hname
      obtain ⟨unique, hname', hrest⟩ := h
      exact .inr (.inl ⟨unique, hname', .inr hrest⟩)
  | clone name' =>
      obtain rfl := List.mem_singleton.mp hname
      obtain ⟨unique, hname', hunique, -⟩ := h
      exact .inr (.inl ⟨unique, hname', .inl hunique⟩)
  | cloned name' =>
      obtain rfl := List.mem_singleton.mp hname
      obtain ⟨unique, f, hname', rfl⟩ := h
      exact .inr (.inl ⟨unique, hname', .inl rfl⟩)
  | rename old target =>
      obtain ⟨unique, f, rfl, rfl, rfl, -⟩ := h
      obtain rfl | rfl : name = stagingName target unique ∨ name = target := by
        simpa [Op.touches] using hname
      · exact .inr (.inl ⟨unique, rfl, .inl rfl⟩)
      · exact .inr (.inr ⟨rfl, f, unique, rfl, rfl⟩)
  | _ => cases hname

/-- The file of a lock is there until a holder of that lock removes it. -/
theorem Permitted.root_lockName (h : Permitted disk key p stage op) {key' : Text}
    (hlength : key'.length = key.length) :
    (op.apply p source disk).root (lockName key') = disk.root (lockName key') ∨
      key' = key ∧ disk.root (lockName key) = none ∧ op = .create (lockName key) ∨
      key' = key ∧ stage.holds.isSome ∧ op = .unlink (lockName key) := by
  by_cases htouched : lockName key' ∈ op.touches
  · rcases h.touches htouched with ⟨hname, hop⟩ | ⟨unique, hname, -⟩ | ⟨hname, -⟩
    · obtain rfl := lockName_inj.mp hname
      rcases hop with ⟨hop, hnone⟩ | ⟨hop, hholds⟩
      · exact .inr (.inl ⟨rfl, hnone, hop⟩)
      · exact .inr (.inr ⟨rfl, hholds, hop⟩)
    · exact absurd hname (lockName_ne_stagingName hlength)
    · exact absurd hname.symm (ne_lockName hlength.symm)
  · exact .inl (Op.root_of_not_touched htouched)

/-- A staging directory changes by a call of its own caller, or of a holder of its lock. -/
theorem Permitted.root_stagingName (h : Permitted disk key p stage op) {key' unique : Text}
    (hlength : key'.length = key.length) :
    (op.apply p source disk).root (stagingName key' unique) = disk.root (stagingName key' unique) ∨
      key' = key ∧ (stage.unique = some unique ∨
        stage.holds.isSome ∧ ∀ f u, stage ≠ .holding f (.renaming u)) := by
  by_cases htouched : stagingName key' unique ∈ op.touches
  · rcases h.touches htouched with ⟨hname, -⟩ | ⟨unique', hname, hrest⟩ | ⟨hname, -⟩
    · exact absurd hname.symm (lockName_ne_stagingName hlength.symm)
    · obtain ⟨rfl, rfl⟩ := (stagingName_inj hlength).mp hname
      exact .inr ⟨rfl, hrest⟩
    · exact absurd hname.symm (ne_stagingName hlength.symm)
  · exact .inl (Op.root_of_not_touched htouched)

/-- A working copy appears by the rename of a staging directory. -/
theorem Permitted.root_key (h : Permitted disk key p stage op) {key' : Text}
    (hlength : key'.length = key.length) :
    (op.apply p source disk).root key' = disk.root key' ∨
      key' = key ∧ ∃ f unique, stage = .holding f (.renaming unique) ∧
        (op.apply p source disk).root key = disk.root (stagingName key unique) := by
  by_cases htouched : key' ∈ op.touches
  · rcases h.touches htouched with ⟨hname, -⟩ | ⟨unique, hname, -⟩ | ⟨rfl, f, unique, hstage, rfl⟩
    · exact absurd hname (ne_lockName hlength)
    · exact absurd hname (ne_stagingName hlength)
    · have hne : key' ≠ stagingName key' unique := ne_stagingName rfl
      exact .inr ⟨rfl, f, unique, hstage, by simp [Op.apply, hne]⟩
  · exact .inl (Op.root_of_not_touched htouched)

theorem Permitted.cloned (h : Permitted disk key p stage op) (q : ℕ) :
    (op.apply p source disk).cloned q = disk.cloned q ∨
      q = p ∧ (op.apply p source disk).cloned q = some source ∧
        ∃ f unique, stage = .holding f (.cloning unique) := by
  cases op with
  | cloned name =>
      obtain ⟨unique, f, rfl, rfl⟩ := h
      by_cases heq : q = p
      · subst heq
        exact .inr ⟨rfl, by simp [Op.apply], f, unique, rfl⟩
      · exact .inl (by simp [Op.apply, heq])
  | _ => exact .inl rfl

end effect

/-! ### What a call keeps -/

theorem Sound.same_lock {s : Cache} (hs : Sound sha256 s) {p q : ℕ} {c d : Caller}
    (hp : s.callers p = some c) (hq : s.callers q = some d)
    (hkey : cacheKey sha256 d.source = cacheKey sha256 c.source) (hc : c.stage.holds.isSome)
    (hd : d.stage.holds.isSome) : q = p := by
  obtain ⟨f, hf⟩ := Option.isSome_iff_exists.mp hc
  obtain ⟨g, hg⟩ := Option.isSome_iff_exists.mp hd
  have hroot := (hs.callers p c hp).held f hf
  rw [← hkey, (hs.callers q d hq).held g hg] at hroot
  cases hroot
  exact hs.one q p d c f hq hp hg hf

/-- No caller's call breaks what another relies on. -/
theorem Sound.other {s : Cache} (hs : Sound sha256 s) {p q : ℕ} {c d : Caller}
    (hp : s.callers p = some c) (hq : s.callers q = some d) (hne : q ≠ p) {op : Op}
    (hop : Permitted s.disk (cacheKey sha256 c.source) p c.stage op) :
    d.Sound (cacheKey sha256 d.source) (op.apply p c.source s.disk) q := by
  have hlength : (cacheKey sha256 d.source).length = (cacheKey sha256 c.source).length := by simp
  have hc := hs.callers p c hp
  have hd := hs.callers q d hq
  have hfile : ∀ f, c.stage.holds = some f → d.stage.holds = some f → False :=
    fun f hcf hdf => hne (hs.one q p d c f hq hp hdf hcf)
  constructor
  case file_lt =>
    intro f hf
    exact (hd.file_lt f hf).trans_le (Permitted.inodes_le op)
  case osLocked =>
    intro f hf
    exact (hop.osLocks_other hne).mpr (hd.osLocked f hf)
  case held =>
    intro f hf
    have hroot := hd.held f hf
    rcases hop.root_lockName hlength with heq | ⟨hkey, hnone, -⟩ | ⟨hkey, hholds, -⟩
    · rw [heq, hroot]
    · rw [← hkey, hroot] at hnone
      cases hnone
    · exact absurd (hs.same_lock hp hq hkey hholds (by simp [hf])) hne
  case unmarked =>
    intro f hf hmarked
    have hholds : d.stage.holds = some f := by rw [hf]; rfl
    rcases hop.marked (hd.file_lt f (Stage.file_of_holds hholds)) with heq | ⟨-, hcf, -⟩
    · exact hd.unmarked f hf (heq.mp hmarked)
    · exact hfile f hcf hholds
  case covered =>
    intro f hf hmarked
    rcases hop.marked (hd.file_lt f (Stage.file_of_holds hf)) with heq | ⟨-, hcf, -⟩
    · exact (hop.osLocks_other hne).mpr (hd.covered f hf (heq.mp hmarked))
    · exact (hfile f hcf hf).elim
  case verified =>
    intro f hf hmarked
    have hlocked : d.stage.osLocked = some f := by rw [hf]; rfl
    have hown := hd.osLocked f hlocked
    rcases hop.marked (hd.file_lt f (Stage.file_of_osLocked hlocked)) with
      heq | ⟨-, -, hlock⟩
    · have hroot := hd.verified f hf (heq.mp hmarked)
      rcases hop.root_lockName hlength with heq' | ⟨hkey, hnone, -⟩ | ⟨hkey, hholds, -⟩
      · rw [heq', hroot]
      · rw [← hkey, hroot] at hnone
        cases hnone
      · -- a holder that removes a marked file has its OS lock, which `q` has
        obtain ⟨g, hg⟩ := Option.isSome_iff_exists.mp hholds
        have hroot' := hc.held g hg
        rw [← hkey, hroot] at hroot'
        cases hroot'
        have hlock := hc.covered f hg (heq.mp hmarked)
        rw [hown] at hlock
        exact absurd (Option.some.inj hlock) hne
    · rw [hown] at hlock
      exact absurd (Option.some.inj hlock) hne
  case removing => exact hd.removing
  case staged =>
    intro f unique hf
    obtain ⟨hroot, hcloned⟩ := hd.staged f unique hf
    constructor
    · rcases hop.root_stagingName hlength with heq | ⟨hkey, hunique | ⟨hholds, -⟩⟩
      · rw [heq, hroot]
      · exact absurd (hs.apart q p d c unique hq hp (by rw [hf]; rfl) hunique) hne
      · exact absurd (hs.same_lock hp hq hkey hholds (by rw [hf]; rfl)) hne
    · rcases hop.cloned q with heq | ⟨heq, -⟩
      · rw [heq, hcloned]
      · exact absurd heq hne
  case drawn =>
    intro unique hunique
    exact Permitted.drawn_subset op (hd.drawn unique hunique)

theorem not_marked_create {disk : Disk} {p : ℕ} {source : Source} {name : Text} :
    ¬ (Op.apply p source disk (.create name)).Marked disk.inodes := by
  simp [Op.apply, Disk.Marked, firstLine]

/-- A caller's own call leaves it sound where it then stands. -/
theorem Caller.Sound.own {disk : Disk} {key : Text} {p : ℕ} {c : Caller} (h : c.Sound key disk p)
    (hlocks : ∀ f, disk.root (lockName key) = some (.file f) → f < disk.inodes) {op : Op}
    {new : Stage} (hop : Permitted disk key p c.stage op) (ht : Transit disk key c.stage op new) :
    Caller.Sound key (op.apply p c.source disk) p ⟨c.source, new⟩ := by
  have hkept : ∀ f, disk.osLocks f = some p → op ≠ .close →
      (op.apply p c.source disk).osLocks f = some p := by
    intro f hf hclose
    rcases hop.osLocks f with heq | ⟨hnone, -⟩ | ⟨-, hop, -⟩
    · rw [heq, hf]
    · simp [hf] at hnone
    · exact absurd hop hclose
  constructor
  case file_lt =>
    intro f hf
    rcases ht.file f hf with hold | ⟨rfl, rfl⟩ | hroot
    · exact (h.file_lt f hold).trans_le (Permitted.inodes_le op)
    · exact Nat.lt_succ_self _
    · exact (hlocks f hroot).trans_le (Permitted.inodes_le op)
  case osLocked =>
    intro f hf
    rcases ht.osLocked f hf with ⟨hold, hclose⟩ | rfl
    · exact hkept f (h.osLocked f hold) hclose
    · simp [Op.apply]
  case held =>
    intro f hf
    rcases ht.holds f hf with ⟨hold, -, hunlink⟩ | ⟨-, rfl, rfl⟩ | ⟨hold, hmarked, rfl⟩
    · have hroot := h.held f hold
      rcases hop.root_lockName rfl with heq | ⟨-, hnone, -⟩ | ⟨-, -, hop⟩
      · rw [heq, hroot]
      · simp [hroot] at hnone
      · exact absurd hop hunlink
    · simp [Op.apply]
    · exact h.verified f hold hmarked
  case unmarked =>
    intro f hf
    obtain ⟨rfl, rfl⟩ := ht.created f hf
    exact not_marked_create
  case covered =>
    intro f hf hmarked
    rcases ht.holds f hf with ⟨hold, hclose, -⟩ | ⟨-, rfl, rfl⟩ | ⟨hold, -, rfl⟩
    · rcases hop.marked (h.file_lt f (Stage.file_of_holds hold)) with heq | ⟨-, -, hlock⟩
      · exact hkept f (h.covered f hold (heq.mp hmarked)) hclose
      · exact hkept f hlock hclose
    · exact absurd hmarked not_marked_create
    · exact h.osLocked f (by rw [hold]; rfl)
  case verified =>
    intro f hf _
    obtain ⟨-, rfl, hroot⟩ := ht.verified f hf
    exact hroot
  case removing =>
    intro f name hf
    rcases ht.removing f name hf with hold | hpre
    · exact h.removing f name hold
    · exact hpre
  case staged =>
    intro f unique hf
    obtain ⟨-, rfl⟩ := ht.staged f unique hf
    simp [Op.apply]
  case drawn =>
    intro unique hunique
    rcases ht.unique unique hunique with hold | rfl
    · exact Permitted.drawn_subset op (h.drawn unique hold)
    · exact List.mem_cons_self

/-! ### Every run -/

/-- A caller starts, or makes its next call. -/
theorem step_cases {s s' : Cache} {p : ℕ} {move : Move} (h : step sha256 s (p, move) = some s') :
    (∃ source, move = .start source ∧ s.callers p = none ∧
      s' = { s with callers := Function.update s.callers p (some ⟨source, .checking⟩) }) ∨
    ∃ c op new,
      s.callers p = some c ∧ next s.disk (cacheKey sha256 c.source) c.stage move = some (op, new) ∧
      s' = ⟨op.apply p c.source s.disk, Function.update s.callers p (some ⟨c.source, new⟩)⟩ := by
  unfold step at h
  split at h
  · next source hnone hmove => exact .inl ⟨source, hmove, hnone, (Option.some.inj h).symm⟩
  · cases h
  · next c hc =>
      obtain ⟨⟨op, new⟩, hnext, rfl⟩ := Option.map_eq_some_iff.mp h
      exact .inr ⟨c, op, new, hc, hnext, rfl⟩

theorem sound_new : Sound sha256 Cache.new := by
  constructor <;> simp [Cache.new]

theorem Sound.start {s : Cache} (hs : Sound sha256 s) {p : ℕ} (source : Source)
    (hp : s.callers p = none) :
    Sound sha256 { s with callers := Function.update s.callers p (some ⟨source, .checking⟩) } := by
  have hcallers : ∀ q c, Function.update s.callers p (some ⟨source, .checking⟩) q = some c →
      c = ⟨source, .checking⟩ ∨ s.callers q = some c := by
    intro q c hq
    by_cases heq : q = p
    · subst heq
      rw [Function.update_self] at hq
      exact .inl (Option.some.inj hq).symm
    · rw [Function.update_of_ne heq] at hq
      exact .inr hq
  have hkept : ∀ q c,
      s.callers q = some c → Function.update s.callers p (some ⟨source, .checking⟩) q = some c := by
    intro q c hq
    have hne : q ≠ p := by
      rintro rfl
      simp [hp] at hq
    rw [Function.update_of_ne hne, hq]
  constructor
  case callers =>
    intro q c hq
    rcases hcallers q c hq with rfl | hq
    · constructor <;> simp [Stage.file, Stage.osLocked, Stage.holds, Stage.unique]
    · exact hs.callers q c hq
  case one =>
    intro q r c d f hq hr hc hd
    rcases hcallers q c hq with rfl | hq
    · cases hc
    · rcases hcallers r d hr with rfl | hr
      · cases hd
      · exact hs.one q r c d f hq hr hc hd
  case apart =>
    intro q r c d unique hq hr hc hd
    rcases hcallers q c hq with rfl | hq
    · cases hc
    · rcases hcallers r d hr with rfl | hr
      · cases hd
      · exact hs.apart q r c d unique hq hr hc hd
  case owners =>
    intro f q hlock
    obtain ⟨c, hc, hfile⟩ := hs.owners f q hlock
    exact ⟨c, hkept q c hc, hfile⟩
  case locks => exact hs.locks
  case working => exact hs.working
  case history =>
    intro q src hcloned
    obtain ⟨c, hc, hsource⟩ := hs.history q src hcloned
    exact ⟨c, hkept q c hc, hsource⟩

/-- A caller comes to hold a file only where no other holds it. -/
theorem Sound.alone {s : Cache} (hs : Sound sha256 s) {p q : ℕ} {c d : Caller}
    (hp : s.callers p = some c) (hq : s.callers q = some d) (hne : q ≠ p) {op : Op} {new : Stage}
    (ht : Transit s.disk (cacheKey sha256 c.source) c.stage op new) {f : ℕ}
    (hnew : new.holds = some f) (hd : d.stage.holds = some f) : False := by
  have hdsound := hs.callers q d hq
  rcases ht.holds f hnew with ⟨hold, -⟩ | ⟨-, -, rfl⟩ | ⟨hold, hmarked, -⟩
  · exact hne (hs.one q p d c f hq hp hd hold)
  · exact absurd (hdsound.file_lt _ (Stage.file_of_holds hd)) (lt_irrefl _)
  · have hown := (hs.callers p c hp).osLocked f (by rw [hold]; rfl)
    rw [hdsound.covered f hd hmarked] at hown
    exact hne (Option.some.inj hown)

theorem Sound.call {s : Cache} (hs : Sound sha256 s) {p : ℕ} {c : Caller}
    (hp : s.callers p = some c) {move : Move} {op : Op} {new : Stage}
    (hnext : next s.disk (cacheKey sha256 c.source) c.stage move = some (op, new)) :
    Sound sha256 ⟨op.apply p c.source s.disk,
      Function.update s.callers p (some ⟨c.source, new⟩)⟩ := by
  have hc := hs.callers p c hp
  have hop := next_permitted hc hnext
  have ht := next_transit hnext
  have hcallers : ∀ q d, Function.update s.callers p (some ⟨c.source, new⟩) q = some d →
      q = p ∧ d = ⟨c.source, new⟩ ∨ q ≠ p ∧ s.callers q = some d := by
    intro q d hq
    by_cases heq : q = p
    · subst heq
      rw [Function.update_self] at hq
      exact .inl ⟨rfl, (Option.some.inj hq).symm⟩
    · rw [Function.update_of_ne heq] at hq
      exact .inr ⟨heq, hq⟩
  have hlength : ∀ source,
      (cacheKey sha256 source).length = (cacheKey sha256 c.source).length := by simp
  have hcloned : ∀ q source, s.disk.cloned q = some source →
      (op.apply p c.source s.disk).cloned q = some source := by
    intro q source hq
    rcases hop.cloned q with heq | ⟨rfl, heq, -⟩
    · rw [heq, hq]
    · obtain ⟨c', hc', rfl⟩ := hs.history q source hq
      obtain rfl : c = c' := Option.some.inj (hp.symm.trans hc')
      exact heq
  constructor
  case callers =>
    intro q d hq
    rcases hcallers q d hq with ⟨rfl, rfl⟩ | ⟨hne, hq⟩
    · exact hc.own (hs.locks c.source) hop ht
    · exact hs.other hp hq hne hop
  case one =>
    intro q r d e f hq hr hd he
    rcases hcallers q d hq with ⟨rfl, rfl⟩ | ⟨hqp, hq'⟩
    · rcases hcallers r e hr with ⟨rfl, -⟩ | ⟨hrp, hr'⟩
      · rfl
      · exact (hs.alone hp hr' hrp ht hd he).elim
    · rcases hcallers r e hr with ⟨rfl, rfl⟩ | ⟨hrp, hr'⟩
      · exact (hs.alone hp hq' hqp ht he hd).elim
      · exact hs.one q r d e f hq' hr' hd he
  case apart =>
    have hfresh : ∀ q d unique, s.callers q = some d → q ≠ p → new.unique = some unique →
        d.stage.unique = some unique → False := by
      intro q d unique hq hne hnew hd
      rcases ht.unique unique hnew with hold | rfl
      · exact hne (hs.apart q p d c unique hq hp hd hold)
      · exact hop ((hs.callers q d hq).drawn unique hd)
    intro q r d e unique hq hr hd he
    rcases hcallers q d hq with ⟨rfl, rfl⟩ | ⟨hqp, hq'⟩
    · rcases hcallers r e hr with ⟨rfl, -⟩ | ⟨hrp, hr'⟩
      · rfl
      · exact (hfresh r e unique hr' hrp hd he).elim
    · rcases hcallers r e hr with ⟨rfl, rfl⟩ | ⟨hrp, hr'⟩
      · exact (hfresh q d unique hq' hqp he hd).elim
      · exact hs.apart q r d e unique hq' hr' hd he
  case owners =>
    intro f q hlock
    by_cases hqp : q = p
    · subst hqp
      refine ⟨⟨c.source, new⟩, Function.update_self .., ?_⟩
      rcases hop.osLocks f with heq | ⟨-, hop, -⟩ | ⟨-, -, hnone⟩
      · obtain ⟨c', hc', hfile⟩ := hs.owners f q (heq.symm.trans hlock)
        obtain rfl : c = c' := Option.some.inj (hp.symm.trans hc')
        rcases ht.mayLock f hfile with hnew | rfl
        · exact hnew
        · simp [Op.apply] at hlock
      · rcases ht.locking f hop with ⟨-, rfl⟩ | ⟨-, rfl⟩ <;> rfl
      · exact absurd (hlock.symm.trans hnone) (by simp)
    · obtain ⟨d, hd, hfile⟩ := hs.owners f q ((hop.osLocks_other hqp).mp hlock)
      exact ⟨d, (Function.update_of_ne hqp ..).trans hd, hfile⟩
  case locks =>
    intro source f hroot
    rcases hop.root_lockName (hlength source) with heq | ⟨hkey, -, rfl⟩ | ⟨hkey, -, rfl⟩
    · exact (hs.locks source f (heq.symm.trans hroot)).trans_le (Permitted.inodes_le op)
    · rw [hkey] at hroot
      obtain rfl : s.disk.inodes = f := by simpa [Op.apply] using hroot
      exact Nat.lt_succ_self _
    · simp [Op.apply, hkey] at hroot
  case working =>
    intro source node hroot
    rcases hop.root_key (hlength source) with heq | ⟨hkey, f, unique, hstage, heq⟩
    · obtain ⟨q, clone, hnode, hclone, hkey⟩ := hs.working source node (heq.symm.trans hroot)
      exact ⟨q, clone, hnode, hcloned q clone hclone, hkey⟩
    · obtain ⟨hstaged, hclone⟩ := hc.staged f unique hstage
      rw [hkey] at hroot
      refine ⟨p, c.source, ?_, hcloned p c.source hclone, hkey.symm⟩
      exact Option.some.inj (hroot.symm.trans (heq.trans hstaged))
  case history =>
    intro q source hq
    rcases hop.cloned q with heq | ⟨rfl, heq, -⟩
    · obtain ⟨d, hd, hsource⟩ := hs.history q source (heq.symm.trans hq)
      by_cases hqp : q = p
      · subst hqp
        obtain rfl : c = d := Option.some.inj (hp.symm.trans hd)
        exact ⟨⟨c.source, new⟩, Function.update_self .., hsource⟩
      · exact ⟨d, (Function.update_of_ne hqp ..).trans hd, hsource⟩
    · exact ⟨⟨c.source, new⟩, Function.update_self .., Option.some.inj (heq.symm.trans hq)⟩

theorem Sound.step {s s' : Cache} (hs : Sound sha256 s) {event : ℕ × Move}
    (h : GitInclude.step sha256 s event = some s') : Sound sha256 s' := by
  rcases step_cases h with ⟨source, -, hp, rfl⟩ | ⟨c, op, new, hp, hnext, rfl⟩
  · exact hs.start source hp
  · exact hs.call hp hnext

theorem sound_of_reachable {s : Cache} (h : Reachable (step sha256) Cache.new s) : Sound sha256 s :=
  h.invariant sound_new fun _ _ _ _ hs hstep => hs.step hstep

end Ratect.GitInclude
