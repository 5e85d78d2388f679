import Ratect.ApplyIdentity

/-! # What writing to a container leaves

An upload puts directories and files where there are none, or in the place of something else that is
no directory.  So whatever a run writes, the mounts stay where they are, no link is new, and what
was a directory still is one (`Altered`). -/

namespace Paths.FileTree

open Ratect.CreatedContainer (replaceNode)

/-- Entries that have changed without a new link, and in which every directory is still one. -/
structure Rewritten (before after : List (Name × Node)) : Prop where
  links : ∀ place, (FileTree.mk after).IsLink place → (FileTree.mk before).IsLink place
  directories : ∀ place, (FileTree.mk before).kind? place = some .dir →
    (FileTree.mk after).kind? place = some .dir

variable {entries : List (Name × Node)}

theorem Rewritten.refl (entries : List (Name × Node)) : Rewritten entries entries :=
  ⟨fun _ h => h, fun _ h => h⟩

/-- What is not at the changed name is as it was. -/
theorem Rewritten.of_entry {after : List (Name × Node)} {name : Name}
    (hother : ∀ other, other ≠ name → entry? after other = entry? entries other)
    (hsame : ∀ rest, ((FileTree.mk after).IsLink (name :: rest) →
      (FileTree.mk entries).IsLink (name :: rest)) ∧
      ((FileTree.mk entries).kind? (name :: rest) = some .dir →
        (FileTree.mk after).kind? (name :: rest) = some .dir)) : Rewritten entries after := by
  have hkind : ∀ other rest, other ≠ name →
      (FileTree.mk after).kind? (other :: rest) = (FileTree.mk entries).kind? (other :: rest) := by
    intro other rest hne
    rw [kind?_cons, kind?_cons, hother other hne]
  constructor
  · intro place
    cases place with
    | nil => exact fun h => absurd (isLink_iff.mp h) (by simp)
    | cons other rest =>
        by_cases hname : other = name
        · rw [hname]
          exact (hsame rest).1
        · rw [isLink_iff, isLink_iff, hkind other rest hname]
          exact fun h => h
  · intro place
    cases place with
    | nil => exact fun h => h
    | cons other rest =>
        by_cases hname : other = name
        · rw [hname]
          exact (hsame rest).2
        · rw [hkind other rest hname]
          exact fun h => h

/-- A change inside the directory of a name. -/
theorem Rewritten.inside {change : List (Name × Node) → List (Name × Node)} {name : Name}
    (hchange : ∀ inner, entry? entries name = some (.dir inner) → Rewritten inner (change inner)) :
    Rewritten entries (entries.map fun e =>
      (e.1, if e.1 = name then intoDir change e.2 else e.2)) := by
  refine .of_entry (fun other hne => by rw [entry?_map, if_neg hne]) fun rest => ?_
  rw [isLink_iff, isLink_iff, kind?_cons, kind?_cons, entry?_map, if_pos rfl]
  cases hentry : entry? entries name with
  | none => exact ⟨fun h => h, fun h => h⟩
  | some node =>
      cases node with
      | dir inner =>
          have h := hchange inner hentry
          exact ⟨fun hlink => isLink_iff.mp (h.links rest (isLink_iff.mpr hlink)),
            h.directories rest⟩
      | file => exact ⟨fun h => h, fun h => h⟩
      | symlink target => exact ⟨fun h => h, fun h => h⟩

/-- What is fresh has nothing in it, and is no link. -/
theorem kind?_fresh {after : List (Name × Node)} {name : Name} {fresh : Fresh}
    (hentry : entry? after name = some fresh.node) (rest : List Name) :
    (FileTree.mk after).kind? (name :: rest) = if rest = [] then some fresh.kind else none := by
  rw [kind?_cons, hentry]
  cases fresh with
  | file => rfl
  | dir =>
      cases rest with
      | nil => rfl
      | cons next rest => simp [Fresh.node, kind?_cons, entry?]

/-- Something fresh at a name that was no directory's. -/
theorem Rewritten.fresh (fresh : Fresh) {after : List (Name × Node)} {name : Name}
    (hother : ∀ other, other ≠ name → entry? after other = entry? entries other)
    (hentry : entry? after name = some fresh.node)
    (hname : (FileTree.mk entries).kind? [name] ≠ some .dir) : Rewritten entries after := by
  refine .of_entry hother fun rest => ?_
  rw [isLink_iff, kind?_fresh hentry]
  constructor
  · rintro ⟨target, htarget⟩
    split at htarget
    · cases fresh <;> cases htarget
    · cases htarget
  · intro hdir
    rw [kind?_cons] at hdir hname
    cases hbefore : entry? entries name with
    | none =>
        rw [hbefore] at hdir
        cases hdir
    | some node =>
        rw [hbefore] at hdir hname
        cases node with
        | dir inner => exact absurd kind?_root hname
        | file =>
            dsimp only at hdir
            split at hdir <;> cases hdir
        | symlink target =>
            dsimp only at hdir
            split at hdir <;> cases hdir

theorem rewritten_put (fresh : Fresh) {place : List Name}
    (hplace : (FileTree.mk entries).kind? place = none) :
    Rewritten entries (put fresh.node place entries) := by
  induction place generalizing entries with
  | nil => exact .refl entries
  | cons name rest ih =>
      cases rest with
      | nil =>
          have hentry : entry? entries name = none := by
            rw [kind?_cons] at hplace
            cases hentry : entry? entries name with
            | none => rfl
            | some node =>
                rw [hentry] at hplace
                cases node <;> cases hplace
          have hput : ∀ other, entry? (put fresh.node [name] entries) other =
              ( entry? entries other).or
                (if name = other then some fresh.node else none) := fun other =>
            entry?_append entries name other fresh.node
          refine .fresh fresh (fun other hne => ?_) ?_ (by rw [hplace]; simp)
          · rw [hput, if_neg (Ne.symm hne), Option.or_none]
          · rw [hput, hentry, if_pos rfl, Option.none_or]
      | cons next rest =>
          refine .inside fun inner hentry => ih ?_
          rwa [kind?_cons, hentry] at hplace

theorem rewritten_replaceNode (fresh : Fresh) {place : List Name}
    (hplace : (FileTree.mk entries).kind? place ≠ some .dir) :
    Rewritten entries (replaceNode fresh.node place entries) := by
  induction place generalizing entries with
  | nil => exact .refl entries
  | cons name rest ih =>
      cases rest with
      | nil =>
          have hreplaced : ∀ other, entry? (replaceNode fresh.node [name] entries) other =
              if other = name then ( entry? entries other).map fun _ => fresh.node
              else entry? entries other := fun other =>
            entry?_map entries name other fun _ => fresh.node
          cases hentry : entry? entries name with
          | none =>
              refine .of_entry (fun other hne => by rw [hreplaced, if_neg hne]) fun rest => ?_
              rw [isLink_iff, isLink_iff, kind?_cons, kind?_cons, hreplaced, if_pos rfl, hentry]
              exact ⟨fun h => h, fun h => h⟩
          | some node =>
              refine .fresh fresh (fun other hne => by rw [hreplaced, if_neg hne]) ?_ hplace
              rw [hreplaced, if_pos rfl, hentry]
              rfl
      | cons next rest =>
          refine .inside fun inner hentry => ih ?_
          rwa [kind?_cons, hentry] at hplace

end Paths.FileTree

namespace Ratect

open Paths (Path Name Node FileTree Fresh)
open Calls (Program)

namespace CreatedContainer

/-- What calls may have made of a container. -/
structure Altered (before after : CreatedContainer) : Prop where
  mounts : after.mounts = before.mounts
  tmpfs : after.tmpfs = before.tmpfs
  links : ∀ place, after.tree.IsLink place → before.tree.IsLink place
  directories : ∀ place, before.tree.kind? place = some .dir → after.tree.kind? place = some .dir

theorem Altered.refl (container : CreatedContainer) : Altered container container :=
  ⟨rfl, rfl, fun _ h => h, fun _ h => h⟩

theorem Altered.trans {before mid after : CreatedContainer} (h : Altered before mid)
    (h' : Altered mid after) :
    Altered before after where
  mounts := h'.mounts.trans h.mounts
  tmpfs := h'.tmpfs.trans h.tmpfs
  links place hlink := h.links place (h'.links place hlink)
  directories place hdir := h'.directories place (h.directories place hdir)

variable {container after : CreatedContainer}

theorem altered_own (place : List Name) (owner : Ownership) :
    Altered container (container.own place owner) :=
  ⟨rfl, rfl, fun _ h => h, fun _ h => h⟩

/-- A fresh entry where there was no directory. -/
theorem altered_put (fresh : Fresh) {place : List Name}
    (hplace : container.tree.kind? place ≠ some .dir) :
    Altered container (container.put place fresh.node) := by
  unfold put
  split
  · next hnone =>
      have h := FileTree.rewritten_put fresh hnone
      exact ⟨rfl, rfl, h.links, h.directories⟩
  · have h := FileTree.rewritten_replaceNode fresh hplace
    exact ⟨rfl, rfl, h.links, h.directories⟩

theorem altered_extractDirectory (place : List Name) (owner : Ownership) :
    Altered container (container.extractDirectory place owner) := by
  unfold extractDirectory
  split
  · exact altered_own place owner
  · next hplace => exact (altered_put .dir hplace).trans (altered_own place owner)

theorem altered_extractFile {place : List Name} {file : ContainerFile}
    (h : container.extractFile place file = .ok after) : Altered container after := by
  unfold extractFile at h
  split at h
  · cases h
  · next hplace =>
      cases h
      have hput :=
        (altered_put .file hplace).trans (altered_own place ⟨file.uid, file.gid, file.mode⟩)
      exact ⟨hput.mounts, hput.tmpfs, hput.links, hput.directories⟩

theorem altered_makeDirectories (owner : DirectoryOwner) (place names : List Name) :
    Altered container (makeDirectories owner place names container) := by
  induction names generalizing place container with
  | nil => exact .refl container
  | cons name rest ih =>
      cases rest with
      | nil => exact altered_extractDirectory _ _
      | cons next rest => exact (altered_extractDirectory _ _).trans (ih _)

theorem altered_writeFile {path : Path} {file : ContainerFile}
    (h : container.writeFile path file = .ok after) : Altered container after := by
  unfold writeFile at h
  rw [Except.withContext_eq_ok] at h
  split at h
  · cases h
  · exact altered_extractFile h

theorem altered_setDirectoryOwnership {path : Path} {owner : DirectoryOwner} {mode : ℕ}
    (h : container.setDirectoryOwnership path owner mode = .ok after) :
    Altered container after := by
  unfold setDirectoryOwnership at h
  split at h
  · cases h
  · split at h
    · cases h
    · rw [Except.withContext_eq_ok, Except.bind_eq_ok] at h
      obtain ⟨place, -, h⟩ := h
      cases h
      exact altered_extractDirectory _ _

theorem altered_createDirectories {into relative : Path} {owner : DirectoryOwner}
    (h : container.createDirectories into relative owner = .ok after) :
    Altered container after := by
  unfold createDirectories at h
  rw [Except.withContext_eq_ok] at h
  split at h
  · cases h
  · split at h
    · cases h
    · cases h
      exact altered_makeDirectories _ _ _

end CreatedContainer

open CreatedContainer (Altered)

namespace Identity

variable {daemon : DaemonClass} {container after : CreatedContainer}

theorem altered_service {call : Call} {reply : Reply call}
    (h : service daemon call container = .ok (reply, after)) : Altered container after := by
  cases call with
  | facts =>
      cases h
      exact .refl container
  | daemonClass =>
      cases h
      exact .refl container
  | warn text =>
      cases h
      exact .refl container
  | stat path =>
      obtain ⟨stat, -, h⟩ := Except.map_eq_ok.mp h
      cases h
      exact .refl container
  | read path =>
      obtain ⟨file, -, h⟩ := Except.map_eq_ok.mp h
      cases h
      exact .refl container
  | ownership path =>
      obtain ⟨owner, -, h⟩ := Except.map_eq_ok.mp h
      cases h
      exact .refl container
  | write path file =>
      obtain ⟨written, hwritten, h⟩ := Except.map_eq_ok.mp h
      cases h
      exact CreatedContainer.altered_writeFile hwritten
  | setOwnership claimant path owner mode =>
      obtain ⟨owned, howned, h⟩ := Except.map_eq_ok.mp h
      cases h
      exact CreatedContainer.altered_setDirectoryOwnership howned
  | create into relative owner =>
      obtain ⟨created, hcreated, h⟩ := Except.map_eq_ok.mp h
      cases h
      exact CreatedContainer.altered_createDirectories hcreated

/-- What a run leaves of the container. -/
theorem altered_run {α : Type} {p : Act α} {a : α}
    (h : p.run (service daemon) container = .ok (a, after)) : Altered container after := by
  refine Program.run_related .refl .trans ?_ h
  exact fun call before reply after => altered_service

end Identity

end Ratect
