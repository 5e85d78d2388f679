import Ratect.ApplyIdentity

/-! # Taking directories from root

The two loops of `identity.rs` that change owners (`hand_over_directories_made_for_mounts`,
`claim_caches`) are of one form: a turn looks for a path that its element offers, and takes what is
there if it is root's.  A change of owner changes neither where paths lead nor what another element
offers, so a loop is safe exactly if whatever it takes, of the container as it was before the loop,
is a directory in a good spot (`safe_takeEach`). -/

namespace Ratect

open Paths (Path Name)
open Calls (Program)

namespace Identity

section turns

variable {α : Type} (claimant : Claimant) (owner : DirectoryOwner)

/-- One turn of a loop: what an element offers is taken from root. -/
def takeOffered (look : α → Act (Option Path)) (a : α) : Act Unit := do
  match ← look a with
  | none => pure ()
  | some path => takeFromRoot claimant path owner

/-- What an element offers is looked for without a write, and does not depend on owners. -/
structure Looks (daemon : DaemonClass) (Fit : Call → CreatedContainer → Prop)
    (look : α → Act (Option Path))
    (offer : α → CreatedContainer → Except String (Option Path)) : Prop where
  run : ∀ a s, (look a).run (service daemon) s = (offer a s).map fun path => (path, s)
  safe : ∀ a s, (look a).Safe (service daemon) Fit s
  own : ∀ a s place ownership, offer a (CreatedContainer.own s place ownership) = offer a s

/-- What does not write is fit, and a directory may be taken from root where it is on a way and in a
good spot. -/
structure Grants (Fit : Call → CreatedContainer → Prop) (Way : Path → Prop)
    (Spot : CreatedContainer → List Name → Prop) : Prop where
  quiet : ∀ call s, call.writes = false → Fit call s
  claims : ∀ path mode s, Fit (.setOwnership claimant path owner mode) s ↔
    Way path ∧ ∃ place, s.found path = .ok place ∧ s.IsRoots place ∧ Spot s place
  own : ∀ s place ownership, Spot (CreatedContainer.own s place ownership) = Spot s

variable (offer : α → CreatedContainer → Except String (Option Path))

/-- The daemon answers what an element's turn asks. -/
def Answers (s : CreatedContainer) (a : α) : Prop :=
  ∃ offered, offer a s = .ok offered ∧ ∀ path, offered = some path →
    ∃ place, s.found path = .ok place

/-- An element's turn takes what is at a place from root. -/
def Takes (s : CreatedContainer) (a : α) (place : List Name) : Prop :=
  ∃ path, offer a s = .ok (some path) ∧ s.found path = .ok place ∧ (s.ownership place).uid = 0

/-- Whatever is taken from root is a directory in a good spot, as far as the daemon answers. -/
def Takeable (Spot : CreatedContainer → List Name → Prop) (l : List α)
    (s : CreatedContainer) : Prop :=
  ∀ above a below, l = above ++ a :: below → (∀ b ∈ above, Answers offer s b) →
    ∀ place, Takes offer s a place → s.tree.kind? place = some .dir ∧ Spot s place

variable {claimant owner offer} {daemon : DaemonClass} {Fit : Call → CreatedContainer → Prop}
    {Way : Path → Prop} {Spot : CreatedContainer → List Name → Prop} {look : α → Act (Option Path)}
    {s s' : CreatedContainer} {a : α} {l : List α}

theorem takeable_cons :
    Takeable offer Spot (a :: l) s ↔
      (∀ place, Takes offer s a place → s.tree.kind? place = some .dir ∧ Spot s place) ∧
        (Answers offer s a → Takeable offer Spot l s) := by
  constructor
  · intro h
    refine ⟨h [] a l rfl (by simp), ?_⟩
    rintro hanswers above b below rfl habove
    exact h (a :: above) b below rfl (List.forall_mem_cons.mpr ⟨hanswers, habove⟩)
  · rintro ⟨hhead, hrest⟩ above b below hl habove
    cases above with
    | nil =>
        cases hl
        exact hhead
    | cons first above =>
        cases hl
        rw [List.forall_mem_cons] at habove
        exact hrest habove.1 above b below rfl habove.2

/-- What was taken in a good spot makes no difference to the rest. -/
theorem takeable_own (hlook : Looks daemon Fit look offer)
    (hgrants : Grants claimant owner Fit Way Spot) {place : List Name} {ownership : Ownership}
    (howner : ownership.uid ≠ 0) (hdir : s.tree.kind? place = some .dir) (hspot : Spot s place) :
    Takeable offer Spot l (s.own place ownership) ↔ Takeable offer Spot l s := by
  have hanswers : ∀ b, Answers offer (s.own place ownership) b ↔ Answers offer s b := by
    intro b
    unfold Answers
    rw [hlook.own]
    rfl
  have htakes : ∀ b other, Takes offer (s.own place ownership) b other ↔
      other ≠ place ∧ Takes offer s b other := by
    intro b other
    unfold Takes
    simp only [hlook.own, CreatedContainer.found_own, CreatedContainer.uid_own howner]
    constructor
    · rintro ⟨path, hoffer, hfound, hother, huid⟩
      exact ⟨hother, path, hoffer, hfound, huid⟩
    · rintro ⟨hother, path, hoffer, hfound, huid⟩
      exact ⟨path, hoffer, hfound, hother, huid⟩
  unfold Takeable
  simp only [hanswers, htakes, hgrants.own]
  refine forall₅_congr fun above b below hl habove => ?_
  constructor
  · intro h other hother
    by_cases hsame : other = place
    · rw [hsame]
      exact ⟨hdir, hspot⟩
    · exact h other ⟨hsame, hother⟩
  · rintro h other ⟨-, hother⟩
    exact h other hother

theorem safe_takeFromRoot (hgrants : Grants claimant owner Fit Way Spot) {path : Path} :
    (takeFromRoot claimant path owner).Safe (service daemon) Fit s ↔
      ∀ place, s.found path = .ok place → (s.ownership place).uid = 0 →
        Fit (.setOwnership claimant path owner (s.ownership place).mode) s := by
  unfold takeFromRoot containerDirectoryOwnership
  rw [Program.safe_ask_bind, and_iff_right (hgrants.quiet _ _ rfl)]
  constructor
  · intro h place hfound huid
    have hreply := h ⟨(s.ownership place).uid, (s.ownership place).mode⟩ s (by
      rw [service, CreatedContainer.directoryOwnership_eq_ok.mpr ⟨place, hfound, rfl⟩]
      rfl)
    rw [if_pos huid] at hreply
    exact Program.safe_ask.mp hreply
  · intro h ownership s' hreply
    rw [service, Except.map_eq_ok] at hreply
    obtain ⟨reply, hreply, heq⟩ := hreply
    cases heq
    obtain ⟨place, hfound, rfl⟩ := CreatedContainer.directoryOwnership_eq_ok.mp hreply
    dsimp only
    split
    · next huid => exact Program.safe_ask.mpr (h place hfound huid)
    · trivial

/-- What a turn at root's directories comes to. -/
theorem run_takeFromRoot {path : Path} {place : List Name} (habsolute : path.head? = some .root)
    (hbelow : path.tail ≠ []) (hfound : s.found path = .ok place)
    (hdir : (s.ownership place).uid = 0 → s.tree.kind? place = some .dir) :
    (takeFromRoot claimant path owner).run (service daemon) s =
      .ok ((),
        if (s.ownership place).uid = 0 then
          s.own place ⟨owner.uid, owner.gid, (s.ownership place).mode⟩ else s) := by
  unfold takeFromRoot containerDirectoryOwnership
  rw [Program.run_ask_bind]
  refine ⟨⟨(s.ownership place).uid, (s.ownership place).mode⟩, s, ?_, ?_⟩
  · rw [service, CreatedContainer.directoryOwnership_eq_ok.mpr ⟨place, hfound, rfl⟩]
    rfl
  · dsimp only
    split
    · next huid =>
        unfold setContainerDirectoryOwnership
        rw [Program.run_ask, service,
          CreatedContainer.setDirectoryOwnership_dir habsolute hbelow hfound (hdir huid)]
        rfl
    · rfl

theorem found_of_run_takeFromRoot {path : Path} {s' : CreatedContainer}
    (h : (takeFromRoot claimant path owner).run (service daemon) s = .ok ((), s')) :
    ∃ place, s.found path = .ok place := by
  unfold takeFromRoot containerDirectoryOwnership at h
  obtain ⟨reply, mid, hreply, -⟩ := Program.run_ask_bind.mp h
  rw [service, Except.map_eq_ok] at hreply
  obtain ⟨reply', hreply, -⟩ := hreply
  obtain ⟨place, hfound, -⟩ := CreatedContainer.directoryOwnership_eq_ok.mp hreply
  exact ⟨place, hfound⟩

/-- One turn is safe exactly if what it takes from root is a directory in a good spot. -/
theorem safe_takeOffered (hlook : Looks daemon Fit look offer)
    (hgrants : Grants claimant owner Fit Way Spot)
    (hway : ∀ path, offer a s = .ok (some path) → Way path) :
    (takeOffered claimant owner look a).Safe (service daemon) Fit s ↔
      ∀ place, Takes offer s a place → s.tree.kind? place = some .dir ∧ Spot s place := by
  unfold takeOffered
  rw [Program.safe_bind, and_iff_right (hlook.safe a s), hlook.run]
  constructor
  · rintro h place ⟨path, hoffer, hfound, huid⟩
    have htake := h (some path) s (by rw [hoffer]; rfl)
    have hfit := (safe_takeFromRoot hgrants).mp htake place hfound huid
    obtain ⟨-, place', hfound', hroots, hspot⟩ := (hgrants.claims _ _ _).mp hfit
    rw [hfound] at hfound'
    cases hfound'
    exact ⟨hroots.1, hspot⟩
  · intro h offered s' hrun
    rw [Except.map_eq_ok] at hrun
    obtain ⟨offered', hoffer, heq⟩ := hrun
    cases heq
    cases offered with
    | none => trivial
    | some path =>
        refine (safe_takeFromRoot hgrants).mpr fun place hfound huid => ?_
        obtain ⟨hdir, hspot⟩ := h place ⟨path, hoffer, hfound, huid⟩
        exact (hgrants.claims _ _ _).mpr ⟨hway path hoffer, place, hfound, ⟨hdir, huid⟩, hspot⟩

/-- What a safe turn leaves: nothing has changed, or it has taken what is at one place. -/
theorem run_takeOffered (hlook : Looks daemon Fit look offer)
    (hown : ∀ path, offer a s = .ok (some path) → path.head? = some .root ∧ path.tail ≠ [])
    (hsafe : ∀ place, Takes offer s a place → s.tree.kind? place = some .dir ∧ Spot s place)
    {s' : CreatedContainer} :
    (takeOffered claimant owner look a).run (service daemon) s = .ok ((), s') ↔
      Answers offer s a ∧
        (s' = s ∧ (∀ place, ¬ Takes offer s a place) ∨
          ∃ place, Takes offer s a place ∧
            s' = s.own place ⟨owner.uid, owner.gid, (s.ownership place).mode⟩) := by
  unfold takeOffered
  rw [Program.run_bind, hlook.run]
  simp only [Except.map_eq_ok, Prod.mk.injEq]
  have htaken : ∀ path place, offer a s = .ok (some path) → s.found path = .ok place →
      (takeFromRoot claimant path owner).run (service daemon) s = .ok ((),
        if (s.ownership place).uid = 0 then
          s.own place ⟨owner.uid, owner.gid, (s.ownership place).mode⟩ else s) := by
    intro path place hoffer hfound
    obtain ⟨habsolute, hbelow⟩ := hown path hoffer
    exact run_takeFromRoot habsolute hbelow hfound fun huid =>
      (hsafe place ⟨path, hoffer, hfound, huid⟩).1
  constructor
  · rintro ⟨offered, mid, ⟨offered', hoffer, rfl, rfl⟩, hrun⟩
    cases offered' with
    | none =>
        cases hrun
        refine ⟨⟨none, hoffer, by simp⟩, Or.inl ⟨rfl, ?_⟩⟩
        rintro place ⟨path, hoffer', -, -⟩
        rw [hoffer] at hoffer'
        cases hoffer'
    | some path =>
        obtain ⟨place, hfound⟩ := found_of_run_takeFromRoot hrun
        refine ⟨⟨some path, hoffer, ?_⟩, ?_⟩
        · rintro path' ⟨⟩
          exact ⟨place, hfound⟩
        · dsimp only at hrun
          rw [htaken path place hoffer hfound] at hrun
          cases hrun
          by_cases huid : (s.ownership place).uid = 0
          · rw [if_pos huid]
            exact Or.inr ⟨place, ⟨path, hoffer, hfound, huid⟩, rfl⟩
          · rw [if_neg huid]
            refine Or.inl ⟨rfl, ?_⟩
            rintro place' ⟨path', hoffer', hfound', huid'⟩
            rw [hoffer] at hoffer'
            cases hoffer'
            rw [hfound] at hfound'
            cases hfound'
            exact huid huid'
  · rintro ⟨⟨offered, hoffer, hthere⟩, hleft⟩
    refine ⟨offered, s, ⟨offered, hoffer, rfl, rfl⟩, ?_⟩
    cases offered with
    | none =>
        rcases hleft with ⟨rfl, -⟩ | ⟨place, ⟨path, hoffer', -, -⟩, -⟩
        · rfl
        · rw [hoffer] at hoffer'
          cases hoffer'
    | some path =>
        obtain ⟨place, hfound⟩ := hthere path rfl
        dsimp only
        rw [htaken path place hoffer hfound]
        rcases hleft with ⟨rfl, hnone⟩ | ⟨place', ⟨path', hoffer', hfound', huid⟩, rfl⟩
        · rw [if_neg fun huid => hnone place ⟨path, hoffer, hfound, huid⟩]
        · rw [hoffer] at hoffer'
          cases hoffer'
          rw [hfound] at hfound'
          cases hfound'
          rw [if_pos huid]

/-- A loop is safe exactly if whatever it takes from root, of the container as it was before the
loop, is a directory in a good spot. -/
theorem safe_takeEach (hlook : Looks daemon Fit look offer)
    (hgrants : Grants claimant owner Fit Way Spot) (howner : owner.uid ≠ 0)
    (hway : ∀ a ∈ l, ∀ s path, offer a s = .ok (some path) → Way path)
    (hown : ∀ a ∈ l, ∀ s path,
      offer a s = .ok (some path) → path.head? = some .root ∧ path.tail ≠ []) :
    (Program.forEach (takeOffered claimant owner look) l).Safe (service daemon) Fit s ↔
      Takeable offer Spot l s := by
  induction l generalizing s with
  | nil =>
      refine iff_of_true trivial ?_
      rintro above a below hl
      simp at hl
  | cons a l ih =>
      rw [List.forall_mem_cons] at hway hown
      rw [Program.forEach, Program.safe_bind, takeable_cons,
        safe_takeOffered hlook hgrants (hway.1 s)]
      refine and_congr_right fun hsafe => ?_
      simp only [run_takeOffered hlook (hown.1 s) hsafe, ih hway.2 hown.2]
      constructor
      · intro h hanswers
        by_cases htakes : ∃ place, Takes offer s a place
        · obtain ⟨place, htakes⟩ := htakes
          obtain ⟨hdir, hspot⟩ := hsafe place htakes
          exact (takeable_own hlook hgrants howner hdir hspot).mp
            (h () _ ⟨hanswers, Or.inr ⟨place, htakes, rfl⟩⟩)
        · rw [not_exists] at htakes
          exact h () s ⟨hanswers, Or.inl ⟨rfl, htakes⟩⟩
      · rintro h ⟨⟩ s' ⟨hanswers, ⟨rfl, -⟩ | ⟨place, htakes, rfl⟩⟩
        · exact h hanswers
        · obtain ⟨hdir, hspot⟩ := hsafe place htakes
          exact (takeable_own hlook hgrants howner hdir hspot).mpr (h hanswers)

end turns

end Identity

end Ratect
