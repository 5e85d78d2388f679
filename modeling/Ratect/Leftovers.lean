import Ratect.IndexMap
import Ratect.Loop

/-! # Leftovers

`resources.rs`: the containers and networks that earlier runs left behind, found by their labels
(`find`) and removed, containers before networks (`remove`).

The age of a leftover is a difference of two `i64`, which where it is out of range panics in a build
that checks overflow and wraps in one that does not (`subI64`); the duration that it is compared
with is cut to whole seconds and cast.  `findsExactly_iff` says for which listings, ages and
durations the selection is exact. -/

namespace Ratect

/-! ### Resources -/

/-- `labels::PROJECT`. -/
def Labels.project : String := "eu.orican.ratect.project"

/-- `labels::TASK`. -/
def Labels.task : String := "eu.orican.ratect.task"

/-- `labels::RUN`. -/
def Labels.run : String := "eu.orican.ratect.run"

/-- `LabelledResource`; only a container has a state. -/
structure LabelledResource where
  id : String
  name : String
  labels : IndexMap String String
  created : Option Int64
  state : Option String

/-- The resource has the project label. -/
def LabelledResource.isLabelled (resource : LabelledResource) : Bool :=
  (resource.labels.get? Labels.project).isSome

/-- The value of a label, for a report. -/
def LabelledResource.label (resource : LabelledResource) (key : String) : String :=
  (resource.labels.get? key).getD "unknown"

/-- `std::time::Duration`. -/
structure Duration where
  secs : UInt64
  nanos : Fin 1000000000

/-- `ResourceInventory`, a daemon with state: a listing by label filters, and removals that it
answers. -/
structure ResourceInventory (σ : Type) where
  listContainers : List (String × Option String) → Except String (List LabelledResource)
  listNetworks : List (String × Option String) → Except String (List LabelledResource)
  removeNetwork : String → σ → Except String Unit × σ
  stopAndRemoveContainer : String → σ → Except String Unit × σ

/-! ### Finding -/

/-- How a search for leftovers fails: the daemon does not list, or an age is out of range. -/
inductive FindFailure where
  | daemon (message : String)
  | overflow
deriving DecidableEq, Repr

/-- The number is an `i64`. -/
def InI64 (n : ℤ) : Prop := -2 ^ 63 ≤ n ∧ n < 2 ^ 63

instance (n : ℤ) : Decidable (InI64 n) := inferInstanceAs (Decidable (_ ∧ _))

/-- `-` of `i64`, in a build that checks overflow or in one that does not. -/
def subI64 (checks : Bool) (a b : Int64) : Except FindFailure Int64 :=
  if checks ∧ ¬ InI64 (a.toInt - b.toInt) then .error .overflow else .ok (a - b)

/-- `Leftover`. -/
structure Leftover where
  resource : LabelledResource
  task : String
  run : String
  ageSeconds : Int64
  isNetwork : Bool

/-- `Leftover::new`. -/
def Leftover.new (checks : Bool) (now : Int64) (resource : LabelledResource) :
    Except FindFailure Leftover := do
  let ageSeconds ← match resource.created with
    | some created => subI64 checks now created
    | none => .ok 0
  return { resource := resource
           task := resource.label Labels.task
           run := resource.label Labels.run
           ageSeconds := ageSeconds
           isNetwork := resource.state.isNone }

/-- The age test of `find`. -/
def Leftover.isOldEnough (olderThan : Option Duration) (leftover : Leftover) : Bool :=
  match olderThan with
  | some olderThan => decide (olderThan.secs.toInt64 ≤ leftover.ageSeconds)
  | none => true

/-- `find`. -/
def find {σ : Type} (checks : Bool) (docker : ResourceInventory σ) (project : Option String)
    (olderThan : Option Duration) (now : Int64) : Except FindFailure (List Leftover) := do
  let filters := [(Labels.project, project)]
  let containers ← (docker.listContainers filters).mapError .daemon
  let networks ← (docker.listNetworks filters).mapError .daemon
  let leftovers ← ((containers ++ networks).filter LabelledResource.isLabelled).mapM
    (Leftover.new checks now)
  return leftovers.filter (Leftover.isOldEnough olderThan)

/-! ### Removing -/

/-- What is reported of a removal, once it was attempted. -/
structure RemovalReport where
  leftover : Leftover
  result : Except String Unit

/-- The removal of one leftover. -/
def ResourceInventory.remove {σ : Type} (docker : ResourceInventory σ) (leftover : Leftover)
    (state : σ) : Except String Unit × σ :=
  if leftover.isNetwork then docker.removeNetwork leftover.resource.id state
  else docker.stopAndRemoveContainer leftover.resource.id state

/-- The loop of `remove`: what it reports, how many it has removed, and the daemon it leaves. -/
def removeLeftoversFrom {σ : Type} (docker : ResourceInventory σ) :
    σ → ℕ → List Leftover → List RemovalReport × ℕ × σ
  | state, removed, [] => ([], removed, state)
  | state, removed, leftover :: leftovers =>
      let attempt := docker.remove leftover state
      let rest :=
        removeLeftoversFrom docker attempt.2
          (if attempt.1.isOk then removed + 1 else removed) leftovers
      (⟨leftover, attempt.1⟩ :: rest.1, rest.2)

/-- `remove`: containers first, then networks. -/
def removeLeftovers {σ : Type} (docker : ResourceInventory σ) (state : σ)
    (leftovers : List Leftover) : List RemovalReport × ℕ × σ :=
  let (networks, containers) := leftovers.partition Leftover.isNetwork
  removeLeftoversFrom docker state 0 (containers ++ networks)

/-! ### Ages -/

/-- The age of a resource, in seconds; one without a timestamp has none. -/
def LabelledResource.age (now : Int64) (resource : LabelledResource) : ℤ :=
  match resource.created with
  | some created => now.toInt - created.toInt
  | none => 0

/-- The age test of `find`, of an age that is in range. -/
def agedEnough (olderThan : Option Duration) (age : ℤ) : Bool :=
  match olderThan with
  | some olderThan => decide (olderThan.secs.toInt64.toInt ≤ age)
  | none => true

/-- The age, in seconds, is at least the duration. -/
def IsOld (olderThan : Option Duration) (age : ℤ) : Bool :=
  match olderThan with
  | some olderThan =>
      decide (olderThan.secs.toNat * 1000000000 + olderThan.nanos ≤ age * 1000000000)
  | none => true

/-- The age is in range, and the duration's whole seconds, cast, compare with it as the duration
does: no fraction is cut off where the seconds are equal, and no duration beyond `i64` becomes one
that is reached. -/
structure Judgeable (olderThan : Option Duration) (age : ℤ) : Prop where
  inRange : InI64 age
  fraction : ∀ d ∈ olderThan, ¬ (0 < d.nanos ∧ age = d.secs.toNat)
  cast : ∀ d ∈ olderThan, d.secs.toNat < 2 ^ 63 ∨ age + 2 ^ 64 < d.secs.toNat

theorem toInt_toInt64 (secs : UInt64) :
    secs.toInt64.toInt = if secs.toNat < 2 ^ 63 then (secs.toNat : ℤ) else secs.toNat - 2 ^ 64 := by
  have hbmod : secs.toInt64.toInt = (secs.toNat : ℤ).bmod (2 ^ 64) := by
    rw [UInt64.toInt64, ← Int64.toInt_toBitVec]
    show secs.toBitVec.toInt = _
    rw [BitVec.toInt_eq_toNat_bmod]
    rfl
  have hlt : secs.toNat < 2 ^ 64 := secs.toNat_lt
  rw [hbmod, Int.bmod_def, Int.emod_eq_of_lt (by omega) (by omega)]
  split
  · rw [if_pos (by omega)]
  · rw [if_neg (by omega)]
    norm_num

theorem isOldEnough_eq {olderThan : Option Duration} {leftover : Leftover} {age : ℤ}
    (hage : leftover.ageSeconds.toInt = age) :
    leftover.isOldEnough olderThan = agedEnough olderThan age := by
  cases olderThan with
  | none => rfl
  | some d =>
      unfold Leftover.isOldEnough agedEnough
      rw [decide_eq_decide, Int64.le_iff_toInt_le, hage]

/-- Of an age that is in range, the test agrees with the duration exactly if it can be judged. -/
theorem agedEnough_iff {olderThan : Option Duration} {age : ℤ} (hrange : InI64 age) :
    agedEnough olderThan age = IsOld olderThan age ↔ Judgeable olderThan age := by
  cases olderThan with
  | none =>
      exact ⟨fun _ => ⟨hrange, fun _ hd => (by cases hd), fun _ hd => (by cases hd)⟩, fun _ => rfl⟩
  | some d =>
      have hjudgeable : Judgeable (some d) age ↔
          ¬ (0 < d.nanos ∧ age = d.secs.toNat) ∧
            (d.secs.toNat < 2 ^ 63 ∨ age + 2 ^ 64 < d.secs.toNat) :=
        ⟨fun h => ⟨h.fraction d rfl, h.cast d rfl⟩,
          fun h => ⟨hrange, fun _ hd => (by cases hd; exact h.1), fun _ hd =>
            (by cases hd; exact h.2)⟩⟩
      rw [hjudgeable]
      unfold agedEnough IsOld
      rw [decide_eq_decide, toInt_toInt64]
      have hnanos := d.nanos.isLt
      have hpos : 0 < d.nanos ↔ 0 < (d.nanos : ℕ) := Iff.rfl
      obtain ⟨hlow, hhigh⟩ := hrange
      rw [hpos]
      split
      · omega
      · omega

/-- A leftover is of the resource it was made from. -/
theorem Leftover.new_resource {checks : Bool} {now : Int64} {resource : LabelledResource}
    {leftover : Leftover} (h : Leftover.new checks now resource = .ok leftover) :
    leftover.resource = resource := by
  unfold Leftover.new at h
  cases hcreated : resource.created with
  | none =>
      rw [hcreated] at h
      cases h
      rfl
  | some created =>
      rw [hcreated] at h
      obtain ⟨ageSeconds, -, h⟩ := Except.bind_eq_ok.mp h
      cases h
      rfl

/-- A leftover whose age is in range carries it. -/
theorem Leftover.new_ok {now : Int64} {resource : LabelledResource} (h : InI64 (resource.age now))
    (checks : Bool) :
    ∃ leftover, Leftover.new checks now resource = .ok leftover ∧ leftover.resource = resource ∧
      leftover.ageSeconds.toInt = resource.age now := by
  unfold LabelledResource.age at h ⊢
  cases hcreated : resource.created with
  | none =>
      refine ⟨⟨resource, resource.label Labels.task, resource.label Labels.run, 0,
        resource.state.isNone⟩, ?_,
        rfl, rfl⟩
      unfold Leftover.new
      rw [hcreated]
      rfl
  | some created =>
      rw [hcreated] at h
      dsimp only at h ⊢
      refine ⟨⟨resource, resource.label Labels.task, resource.label Labels.run, now - created,
        resource.state.isNone⟩, ?_, rfl, ?_⟩
      · unfold Leftover.new
        rw [hcreated]
        dsimp only
        unfold subI64
        rw [if_neg (fun hno => hno.2 h)]
        rfl
      · show (now - created).toInt = _
        rw [Int64.toInt_sub]
        obtain ⟨hlow, hhigh⟩ := h
        exact Int.bmod_eq_of_le (by omega) (by omega)

/-- One whose age is out of range panics where overflow is checked. -/
theorem Leftover.new_overflow {now : Int64} {resource : LabelledResource}
    (h : ¬ InI64 (resource.age now)) : Leftover.new true now resource = .error .overflow := by
  unfold LabelledResource.age at h
  cases hcreated : resource.created with
  | none =>
      rw [hcreated] at h
      exact absurd (show InI64 0 by decide) h
  | some created =>
      rw [hcreated] at h
      unfold Leftover.new
      rw [hcreated]
      dsimp only
      unfold subI64
      rw [if_pos ⟨rfl, h⟩]
      rfl

theorem mapM_new_ok {now : Int64} {resources : List LabelledResource}
    (h : ∀ resource ∈ resources, InI64 (resource.age now)) (checks : Bool) :
    ∃ leftovers, resources.mapM (Leftover.new checks now) = .ok leftovers ∧
      leftovers.map Leftover.resource = resources ∧
      ∀ leftover ∈ leftovers, leftover.ageSeconds.toInt = leftover.resource.age now := by
  induction resources with
  | nil => exact ⟨[], rfl, rfl, fun _ h => absurd h List.not_mem_nil⟩
  | cons resource resources ih =>
      obtain ⟨leftover, hnew, hresource, hage⟩ :=
        Leftover.new_ok (h resource List.mem_cons_self) checks
      obtain ⟨leftovers, hmap, hresources, hages⟩ := ih fun r hr => h r (List.mem_cons_of_mem _ hr)
      refine ⟨leftover :: leftovers, ?_, ?_, ?_⟩
      · rw [List.mapM_cons, hnew, hmap]
        rfl
      · rw [List.map_cons, hresource, hresources]
      · intro l hl
        rcases List.mem_cons.mp hl with rfl | hl
        · rw [hage, hresource]
        · exact hages l hl

theorem mapM_new_resource {checks : Bool} {now : Int64} {resources : List LabelledResource}
    {leftovers : List Leftover} (h : resources.mapM (Leftover.new checks now) = .ok leftovers) :
    leftovers.map Leftover.resource = resources := by
  induction Except.mapM_eq_ok.mp h with
  | nil => rfl
  | cons hnew hrest ih =>
      rw [List.map_cons, ih (Except.mapM_eq_ok.mpr hrest), Leftover.new_resource hnew]

/-- If nothing panics where overflow is checked, every age is in range. -/
theorem inI64_of_mapM {now : Int64} {resources : List LabelledResource} {leftovers : List Leftover}
    (h : resources.mapM (Leftover.new true now) = .ok leftovers) :
    ∀ resource ∈ resources, InI64 (resource.age now) := by
  induction Except.mapM_eq_ok.mp h with
  | nil => exact fun _ h => absurd h List.not_mem_nil
  | cons hnew hrest ih =>
      intro r hr
      rcases List.mem_cons.mp hr with rfl | hr
      · by_contra hrange
        rw [Leftover.new_overflow hrange] at hnew
        cases hnew
      · exact ih (Except.mapM_eq_ok.mpr hrest) r hr

/-! ### What is found -/

theorem filter_eq_filter_iff {α : Type} {p q : α → Bool} {l : List α} :
    l.filter p = l.filter q ↔ ∀ a ∈ l, p a = q a := by
  constructor
  · intro h a ha
    have hmem : a ∈ l.filter p ↔ a ∈ l.filter q := by rw [h]
    rw [List.mem_filter, List.mem_filter] at hmem
    exact Bool.eq_iff_iff.mpr ⟨fun hp => (hmem.mp ⟨ha, hp⟩).2, fun hq => (hmem.mpr ⟨ha, hq⟩).2⟩
  · exact List.filter_congr

section finding

variable {σ : Type} {docker : ResourceInventory σ} {project : Option String}
    {olderThan : Option Duration} {now : Int64} {containers networks : List LabelledResource}

/-- What a search reads, once the daemon has listed. -/
theorem find_eq (hcontainers : docker.listContainers [(Labels.project, project)] = .ok containers)
    (hnetworks : docker.listNetworks [(Labels.project, project)] = .ok networks) (checks : Bool) :
    find checks docker project olderThan now =
      (((containers ++ networks).filter LabelledResource.isLabelled).mapM
        (Leftover.new checks now)).map
        (List.filter (Leftover.isOldEnough olderThan)) := by
  unfold find
  dsimp only
  rw [hcontainers, hnetworks]
  show (((containers ++ networks).filter LabelledResource.isLabelled).mapM
    (Leftover.new checks now) >>=
    fun leftovers : List Leftover =>
      Except.ok (leftovers.filter (Leftover.isOldEnough olderThan))) = _
  cases ((containers ++ networks).filter LabelledResource.isLabelled).mapM
    (Leftover.new checks now) <;> rfl

/-- Where the ages are in range, a search finds the resources that pass the test on their age. -/
theorem find_ok (hcontainers : docker.listContainers [(Labels.project, project)] = .ok containers)
    (hnetworks : docker.listNetworks [(Labels.project, project)] = .ok networks)
    (hrange : ∀ resource ∈ (containers ++ networks).filter LabelledResource.isLabelled,
      InI64 (resource.age now))
    (olderThan : Option Duration) (checks : Bool) :
    ∃ found, find checks docker project olderThan now = .ok found ∧
      found.map Leftover.resource =
        ((containers ++ networks).filter LabelledResource.isLabelled).filter
        fun resource => agedEnough olderThan (resource.age now) := by
  obtain ⟨leftovers, hmap, hresources, hages⟩ := mapM_new_ok hrange checks
  refine ⟨leftovers.filter (Leftover.isOldEnough olderThan), ?_, ?_⟩
  · rw [find_eq hcontainers hnetworks, hmap]
    rfl
  · rw [← hresources, List.filter_map]
    refine congrArg (List.map Leftover.resource) (List.filter_congr fun leftover hleftover => ?_)
    exact isOldEnough_eq (hages leftover hleftover)

/-- A search finds nothing without the project label, whatever the daemon lists. -/
theorem find_labelled {checks : Bool} {found : List Leftover}
    (h : find checks docker project olderThan now = .ok found) :
    ∀ leftover ∈ found, leftover.resource.isLabelled := by
  obtain ⟨containers, -, h⟩ := Except.bind_eq_ok.mp h
  obtain ⟨networks, -, h⟩ := Except.bind_eq_ok.mp h
  obtain ⟨leftovers, hmap, h⟩ := Except.bind_eq_ok.mp h
  cases h
  intro leftover hleftover
  have hresource : leftover.resource ∈ leftovers.map Leftover.resource :=
    List.mem_map_of_mem (List.mem_filter.mp hleftover).1
  rw [mapM_new_resource hmap] at hresource
  exact (List.mem_filter.mp hresource).2

/-- The search finds, in either build, the labelled resources whose age is at least the duration. -/
def FindsExactly (docker : ResourceInventory σ) (project : Option String)
    (olderThan : Option Duration) (now : Int64) (listed : List LabelledResource) : Prop :=
  ∀ checks, ∃ found, find checks docker project olderThan now = .ok found ∧
    found.map Leftover.resource =
      listed.filter fun resource => resource.isLabelled && IsOld olderThan (resource.age now)

theorem findsExactly_iff
    (hcontainers : docker.listContainers [(Labels.project, project)] = .ok containers)
    (hnetworks : docker.listNetworks [(Labels.project, project)] = .ok networks) :
    FindsExactly docker project olderThan now (containers ++ networks) ↔
      ∀ resource ∈ containers ++ networks,
        resource.isLabelled = true → Judgeable olderThan (resource.age now) := by
  have hsplit : ((containers ++ networks).filter fun resource =>
      resource.isLabelled && IsOld olderThan (resource.age now)) =
      ((containers ++ networks).filter LabelledResource.isLabelled).filter
        fun resource => IsOld olderThan (resource.age now) := by
    rw [List.filter_filter]
    exact List.filter_congr fun resource _ => Bool.and_comm _ _
  unfold FindsExactly
  rw [hsplit]
  constructor
  · intro h resource hmem hlabelled
    have hresource : resource ∈ (containers ++ networks).filter LabelledResource.isLabelled :=
      List.mem_filter.mpr ⟨hmem, hlabelled⟩
    obtain ⟨found, hfound, hexact⟩ := h true
    have hrange : ∀ r ∈ (containers ++ networks).filter LabelledResource.isLabelled,
        InI64 (r.age now) := by
      rw [find_eq hcontainers hnetworks] at hfound
      cases hmap : ((containers ++ networks).filter LabelledResource.isLabelled).mapM
        (Leftover.new true now) with
      | error e =>
          rw [hmap] at hfound
          cases hfound
      | ok leftovers => exact inI64_of_mapM hmap
    obtain ⟨found', hfound', htested⟩ := find_ok hcontainers hnetworks hrange olderThan true
    rw [hfound'] at hfound
    cases hfound
    rw [htested] at hexact
    exact (agedEnough_iff (hrange resource hresource)).mp
      (filter_eq_filter_iff.mp hexact resource hresource)
  · intro h checks
    have hjudgeable : ∀ r ∈ (containers ++ networks).filter LabelledResource.isLabelled,
        Judgeable olderThan (r.age now) := fun r hr =>
      h r (List.mem_filter.mp hr).1 (List.mem_filter.mp hr).2
    obtain ⟨found, hfound, htested⟩ := find_ok hcontainers hnetworks
      (fun r hr => (hjudgeable r hr).inRange) olderThan checks
    refine ⟨found, hfound, htested.trans (filter_eq_filter_iff.mpr fun r hr => ?_)⟩
    exact (agedEnough_iff (hjudgeable r hr).inRange).mpr (hjudgeable r hr)

end finding

/-! ### What is removed -/

/-- The reports of removals that the daemon answers one after the other. -/
inductive Answered {σ : Type} (docker : ResourceInventory σ) :
    σ → List RemovalReport → σ → Prop where
  | nil (state : σ) : Answered docker state [] state
  | cons {state state' : σ} {leftover : Leftover} {reports : List RemovalReport}
      (h : Answered docker (docker.remove leftover state).2 reports state') :
      Answered docker state (⟨leftover, (docker.remove leftover state).1⟩ :: reports) state'

/-- Every leftover is attempted once, containers before networks, whatever the daemon answers; the
count is that of the removals that succeeded. -/
structure RemovesEach {σ : Type} (docker : ResourceInventory σ) (state : σ)
    (leftovers : List Leftover) : Prop where
  answered : Answered docker state (removeLeftovers docker state leftovers).1
    (removeLeftovers docker state leftovers).2.2
  once : ((removeLeftovers docker state leftovers).1.map RemovalReport.leftover).Perm leftovers
  order : ∃ containers networks,
    (removeLeftovers docker state leftovers).1.map RemovalReport.leftover = containers ++ networks ∧
      (∀ leftover ∈ containers, leftover.isNetwork = false) ∧
        ∀ leftover ∈ networks, leftover.isNetwork = true
  count : (removeLeftovers docker state leftovers).2.1 =
    (removeLeftovers docker state leftovers).1.countP fun report => report.result.isOk

section removing

variable {σ : Type} (docker : ResourceInventory σ)

theorem removeLeftoversFrom_answered (state : σ) (removed : ℕ) (leftovers : List Leftover) :
    Answered docker state (removeLeftoversFrom docker state removed leftovers).1
      (removeLeftoversFrom docker state removed leftovers).2.2 := by
  induction leftovers generalizing state removed with
  | nil => exact .nil state
  | cons leftover leftovers ih => exact .cons (ih _ _)

theorem removeLeftoversFrom_leftovers (state : σ) (removed : ℕ) (leftovers : List Leftover) :
    (removeLeftoversFrom docker state removed leftovers).1.map
      RemovalReport.leftover = leftovers := by
  induction leftovers generalizing state removed with
  | nil => rfl
  | cons leftover leftovers ih => exact congrArg (leftover :: ·) (ih _ _)

theorem removeLeftoversFrom_count (state : σ) (removed : ℕ) (leftovers : List Leftover) :
    (removeLeftoversFrom docker state removed leftovers).2.1 =
      removed + (removeLeftoversFrom docker state removed leftovers).1.countP fun report =>
        report.result.isOk := by
  induction leftovers generalizing state removed with
  | nil => rfl
  | cons leftover leftovers ih =>
      unfold removeLeftoversFrom
      dsimp only
      rw [ih, List.countP_cons]
      split <;> omega

theorem removesEach (state : σ) (leftovers : List Leftover) :
    RemovesEach docker state leftovers := by
  have hremove : removeLeftovers docker state leftovers = removeLeftoversFrom docker state 0
      (leftovers.filter (not ∘ Leftover.isNetwork) ++ leftovers.filter Leftover.isNetwork) := by
    unfold removeLeftovers
    rw [List.partition_eq_filter_filter]
  refine ⟨?_, ?_, ?_, ?_⟩
  · rw [hremove]
    exact removeLeftoversFrom_answered docker state 0 _
  · rw [hremove, removeLeftoversFrom_leftovers]
    exact List.perm_append_comm.trans (List.filter_append_perm _ _)
  · refine ⟨leftovers.filter (not ∘ Leftover.isNetwork),
      leftovers.filter Leftover.isNetwork, ?_, ?_, ?_⟩
    · rw [hremove, removeLeftoversFrom_leftovers]
    · intro leftover h
      simpa using (List.mem_filter.mp h).2
    · exact fun leftover h => (List.mem_filter.mp h).2
  · rw [hremove, removeLeftoversFrom_count, Nat.zero_add]

end removing

/-- **Finding and removing leftovers.**  Whatever the daemon lists and however it answers each
removal: the search selects exactly the labelled resources whose age is at least the duration,
without overflow, and a removal attempts each of what was found once, containers before networks,
and counts those that succeeded — exactly if for each labelled resource the age is in range and can
be judged by whole seconds. -/
theorem leftovers_exact_iff {σ : Type} {docker : ResourceInventory σ} {project : Option String}
    (olderThan : Option Duration) (now : Int64) {containers networks : List LabelledResource}
    (hcontainers : docker.listContainers [(Labels.project, project)] = .ok containers)
    (hnetworks : docker.listNetworks [(Labels.project, project)] = .ok networks) :
    FindsExactly docker project olderThan now (containers ++ networks) ∧
        (∀ checks found, find checks docker project olderThan now = .ok found →
          (∀ leftover ∈ found, leftover.resource.isLabelled) ∧
            ∀ state, RemovesEach docker state found) ↔
      ∀ resource ∈ containers ++ networks,
        resource.isLabelled = true → Judgeable olderThan (resource.age now) := by
  rw [← findsExactly_iff hcontainers hnetworks]
  exact ⟨And.left, fun h => ⟨h, fun _ found hfound =>
    ⟨find_labelled hfound, fun state => removesEach docker state found⟩⟩⟩

/-- A container of a project, created then. -/
def exampleContainer (created : Int64) : LabelledResource :=
  { id := "young", name := "nostalgic_hopper", labels := .single Labels.project "demo",
    created := some created,
    state := some "exited" }

/-- A daemon with the containers, that removes what it is asked to. -/
def exampleInventory (containers : List LabelledResource) : ResourceInventory Unit :=
  { listContainers := fun _ => .ok containers
    listNetworks := fun _ => .ok []
    removeNetwork := fun _ state => (.ok (), state)
    stopAndRemoveContainer := fun _ state => (.ok (), state) }

/-- A network of the project. -/
def exampleNetwork : LabelledResource :=
  { id := "bridge", name := "demo_default", labels := .single Labels.project "demo",
    created := some 2000,
    state := none }

/-- A daemon with the container and its network. -/
def agedInventory : ResourceInventory Unit :=
  { exampleInventory [exampleContainer 1000] with listNetworks := fun _ => .ok [exampleNetwork] }

/-- A container of two hours and a network a little younger, against an hour. -/
theorem leftovers_exact_hour :
    FindsExactly agedInventory (some "demo") (some ⟨3600, 0⟩) 8200
      ([exampleContainer 1000] ++ [exampleNetwork]) ∧
    ∀ checks found, find checks agedInventory (some "demo") (some ⟨3600, 0⟩) 8200 = .ok found →
      (∀ leftover ∈ found, leftover.resource.isLabelled) ∧
        ∀ state, RemovesEach agedInventory state found := by
  refine (leftovers_exact_iff (some ⟨3600, 0⟩) 8200 rfl rfl).mpr fun resource hmem _ => ?_
  have hjudgeable : ∀ age : ℤ, age = 7200 ∨ age = 6200 → Judgeable (some ⟨3600, 0⟩) age := by
    rintro age (rfl | rfl)
    · refine ⟨by decide, ?_, ?_⟩
      · rintro d ⟨⟩
        decide
      · rintro d ⟨⟩
        decide
    · refine ⟨by decide, ?_, ?_⟩
      · rintro d ⟨⟩
        decide
      · rintro d ⟨⟩
        decide
  rcases List.mem_append.mp hmem with hcontainer | hnetwork
  · cases List.mem_singleton.mp hcontainer
    exact hjudgeable _ (.inl (by decide))
  · cases List.mem_singleton.mp hnetwork
    exact hjudgeable _ (.inr (by decide))

/-- A container half a minute old is found by a search for those of `2 ^ 63` seconds. -/
theorem leftovers_beyond_i64 :
    ¬ FindsExactly (exampleInventory [exampleContainer 970]) (some "demo")
      (some ⟨9223372036854775808, 0⟩) 1000 ([exampleContainer 970] ++ []) := by
  rw [findsExactly_iff rfl rfl]
  intro h
  have hjudgeable := h (exampleContainer 970) List.mem_cons_self (by decide)
  have hage : (exampleContainer 970).age 1000 = 30 := by decide
  rw [hage] at hjudgeable
  exact absurd (hjudgeable.cast _ rfl) (by decide)

end Ratect
