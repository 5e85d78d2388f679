import Ratect.Calls
import Ratect.CreatedContainer
import Ratect.Binds

/-! # Applying an identity

What a container's `identity` does to the container once it exists (`identity.rs`), as a program
that calls the daemon: the running user's entry gets the home, the home is prepared, and a host user
is given the directories made for mounts below its home and its caches. -/

namespace Ratect

open Paths (Path)
open ColonFile (Bytes)
open Calls (Program Service)

/-! ### Daemons -/

/-- `DaemonClass`. -/
inductive DaemonClass where
  | rootless
  | usernsRemap
  | desktop
  | rootfulLinux
deriving DecidableEq, Repr

def DaemonClass.display : DaemonClass → String
  | rootless => "rootless"
  | usernsRemap => "userns-remap"
  | desktop => "desktop"
  | rootfulLinux => "rootful Linux"

/-- `is_remapped`. -/
def DaemonClass.isRemapped : DaemonClass → Bool
  | rootless | usernsRemap => true
  | desktop | rootfulLinux => false

/-- `REMAPPED_MOUNT_ACCESS`. -/
def remappedMountAccess : String :=
  "it has only other users' access to a bind mount the host user owns, so it usually can't write there or read " ++
    "anything private"

/-- `is_root_user`. -/
def isRootUser (user : Text) : Bool :=
  let user := (splitConfiguredUser user).1
  decide (user = "root".toList) || decide (configuredUid user = some 0)

/-- `image_user_warning`. -/
def imageUserWarning (name : String) (imageUser : Text) (daemon : DaemonClass) : Option String :=
  if daemon.isRemapped && !isRootUser imageUser then
    some (s!"Container '{name}' has 'identity', and its image runs it as the non-root user " ++
      s!"'{String.ofList imageUser}' on a {daemon.display} daemon — {remappedMountAccess}.")
  else none

/-! ### What is asked for -/

/-- `IdentityPlan`.  The home has passed its check. -/
structure IdentityPlan where
  home : Text
  hostUser : Option CurrentUser
  additionalUsers : List Config.AdditionalUser
  checked : checkIdentityHome home = .ok ()

/-- Where a bind mount or volume goes, as Docker spells it. -/
def BindMount.destination (bind : BindMount) : Path := Paths.clean (Paths.ofText bind.container)

/-- `ContainerSpec`, as far as an identity needs it, of a container that exists: Docker creates none
with a mount that is not at an absolute path, or at `/`. -/
structure ContainerSpec where
  name : String
  identity : Option IdentityPlan
  volumes : List BindMount
  destinations : ∀ bind ∈ volumes, ∃ name names, bind.destination = .root :: .normal name :: names

namespace Identity

/-- Whose the calls are that change an owner. -/
inductive Claimant where
  | handOver
  | claimCaches
deriving DecidableEq, Repr

/-- The calls that applying an identity makes. -/
inductive Call where
  | facts
  | daemonClass
  | warn (text : String)
  | stat (path : Path)
  | read (path : Path)
  | ownership (path : Path)
  | write (path : Path) (file : ContainerFile)
  | setOwnership (claimant : Claimant) (path : Path) (owner : DirectoryOwner) (mode : ℕ)
  | create (into relative : Path) (owner : DirectoryOwner)

/-- What a call is answered with. -/
@[reducible]
def Reply : Call → Type
  | .facts => Text × CreatedContainerFacts
  | .daemonClass => DaemonClass
  | .warn _ => Unit
  | .stat _ => Option ContainerPathStat
  | .read _ => ContainerFile
  | .ownership _ => DirectoryOwnership
  | .write _ _ => Unit
  | .setOwnership _ _ _ _ => Unit
  | .create _ _ _ => Unit

/-- The calls that write to the container. -/
def Call.writes : Call → Bool
  | .write _ _ | .setOwnership _ _ _ _ | .create _ _ _ => true
  | _ => false

/-- A daemon that knows its class, and the container. -/
def service (daemon : DaemonClass) : Service CreatedContainer Reply String
  | .facts, container => .ok ((container.user, container.facts), container)
  | .daemonClass, container => .ok (daemon, container)
  | .warn _, container => .ok ((), container)
  | .stat path, container => (container.stat path).map (·, container)
  | .read path, container => (container.readFile path).map (·, container)
  | .ownership path, container => (container.directoryOwnership path).map (·, container)
  | .write path file, container => (container.writeFile path file).map ((), ·)
  | .setOwnership _ path owner mode, container =>
      (container.setDirectoryOwnership path owner mode).map ((), ·)
  | .create into relative owner, container =>
      (container.createDirectories into relative owner).map ((), ·)

abbrev Act := Program Reply String

/-! ### The calls -/

/-- `created_container_facts`, with the image's user first. -/
def createdContainerFacts : Act (Text × CreatedContainerFacts) := Program.ask Call.facts

/-- `daemon_class`. -/
def daemonClass : Act DaemonClass := Program.ask Call.daemonClass

/-- What is said to the user of the run. -/
def warn (text : String) : Act Unit := Program.ask (Call.warn text)

/-- `stat_container_path`. -/
def statContainerPath (path : Path) : Act (Option ContainerPathStat) := Program.ask (Call.stat path)

/-- `read_container_file`. -/
def readContainerFile (path : Path) : Act ContainerFile := Program.ask (Call.read path)

/-- `container_directory_ownership`. -/
def containerDirectoryOwnership (path : Path) : Act DirectoryOwnership :=
  Program.ask (Call.ownership path)

/-- `write_container_file`. -/
def writeContainerFile (path : Path) (file : ContainerFile) : Act Unit :=
  Program.ask (Call.write path file)

/-- `set_container_directory_ownership`. -/
def setContainerDirectoryOwnership (claimant : Claimant) (path : Path) (owner : DirectoryOwner)
    (mode : ℕ) : Act Unit :=
  Program.ask (Call.setOwnership claimant path owner mode)

/-- `create_container_directories`. -/
def createContainerDirectories (into relative : Path) (owner : DirectoryOwner) : Act Unit :=
  Program.ask (Call.create into relative owner)

/-! ### The identity files -/

/-- `PASSWD_PATH`. -/
def passwdPath : Path := Paths.ofText "/etc/passwd".toList

/-- `GROUP_PATH`. -/
def groupPath : Path := Paths.ofText "/etc/group".toList

/-- The directory of both. -/
def etcPath : Path := Paths.ofText "/etc".toList

/-- `MAX_IDENTITY_FILE_SIZE`. -/
def maxIdentityFileSize : ℕ := 1024 * 1024

/-- `read_identity_file`. -/
def readIdentityFile (facts : CreatedContainerFacts) (path : Path) : Act ContainerFile :=
  let shown := String.ofList (Paths.toText path)
  let mounted := (facts.mountDestinations ++ facts.tmpfsDestinations).find? fun destination =>
    let destination := Paths.clean (Paths.ofText destination)
    decide (destination = path ∨ destination = etcPath)
  match mounted with
  | some mount =>
      .fail s!"{shown} can't be edited: there is a mount at '{String.ofList (printable mount)}'"
  | none => do
      match ← statContainerPath path with
      | none => pure ⟨[], 0o644, 0, 0⟩
      | some stat =>
          match stat.kind with
          | .symbolicLink => .fail s!"{shown} can't be edited: it is a symbolic link"
          | .directory | .other => .fail s!"{shown} can't be edited: it is not a regular file"
          | .regularFile =>
              if stat.size ≤ maxIdentityFileSize then readContainerFile path
              else .fail s!"{shown} can't be edited: it is over 1 MiB"

/-- `write_group_if_changed`. -/
def writeGroupIfChanged (group : ContainerFile) (contents : Bytes) : Act Unit :=
  if contents = group.contents then pure ()
  else writeContainerFile groupPath { group with contents := contents }

/-! ### The home -/

/-- What root owns of what is at a path, which goes to an owner and keeps its mode. -/
def takeFromRoot (claimant : Claimant) (path : Path) (owner : DirectoryOwner) : Act Unit := do
  let ownership ← containerDirectoryOwnership path
  if ownership.uid = 0 then setContainerDirectoryOwnership claimant path owner ownership.mode
  else pure ()

/-- A component in the order of `BTreeSet<&Path>`. -/
def componentKey : Paths.Component → List ℕ
  | .root => [0]
  | .cur => [1]
  | .parent => [2]
  | .normal name => 3 :: name.text.map Char.toNat

/-- `on_the_way`: the directories from the home down to a mount, from the top down. -/
def onTheWay (home : Path) (facts : CreatedContainerFacts) : List Path :=
  let ancestors := facts.mountDestinations.flatMap fun mount => (Paths.ofText mount).inits.dropLast
  (ancestors.filter fun directory => Paths.startsWith directory home).dedup.insertionSort fun a b =>
    a.map componentKey ≤ b.map componentKey

/-- `in_a_mount`, by the texts of the destinations. -/
def inAMount (facts : CreatedContainerFacts) (directory : Path) : Bool :=
  (facts.mountDestinations ++ facts.tmpfsDestinations).any fun mount =>
    Paths.startsWith directory (Paths.clean (Paths.ofText mount))

/-- `hand_over_directories_made_for_mounts`. -/
def handOverDirectoriesMadeForMounts (home : Path) (owner : DirectoryOwner)
    (facts : CreatedContainerFacts) : Act Unit :=
  if owner.uid = 0 then pure ()
  else
    .forEach (fun directory =>
      if inAMount facts directory then pure ()
      else do
        let stat ← statContainerPath directory
        if stat.map ContainerPathStat.kind = some .directory then
          takeFromRoot .handOver directory owner
        else pure ()) (onTheWay home facts)

/-- The loop of `prepare_home`: the deepest ancestor found, with what the home itself is if it is
there. -/
def lookForHome (home : Text) : Path → List Path → Act (Path × Option ContainerPathKind)
  | into, [] => pure (into, none)
  | into, path :: below => do
      match ← statContainerPath path with
      | none => pure (into, none)
      | some stat =>
          if ¬ (stat.kind = .directory ∨ stat.kind = .symbolicLink) then
            .fail (HomeRefusal.message home (.notADirectory path))
          else if path = Paths.ofText home then pure (path, some stat.kind)
          else lookForHome home path below

/-- `prepare_home`. -/
def prepareHome (home : Text) (owner : DirectoryOwner) (facts : CreatedContainerFacts) :
    Act Unit := do
  let homePath := Paths.ofText home
  match ← lookForHome home [.root] (ancestorsDown homePath) with
  | (_, some .directory) => handOverDirectoriesMadeForMounts homePath owner facts
  | (_, some _) => pure ()
  | (into, none) =>
      Program.ofExcept ((checkNotHidden homePath facts).mapError (HomeRefusal.message home))
      createContainerDirectories into (homePath.drop into.length) owner

/-! ### The caches -/

/-- What `claim_caches` goes by: a volume, and not a read-only one. -/
def isWritableVolume (mount : BindMount) : Bool :=
  match mount.source with
  | .host _ => false
  | .volume _ => !isReadOnly mount.options

/-- `claim_caches`. -/
def claimCaches (volumes : List BindMount) (owner : DirectoryOwner) : Act Unit :=
  if owner.uid = 0 then pure ()
  else
    .forEach (fun mount =>
      if isWritableVolume mount then takeFromRoot .claimCaches mount.destination owner
      else pure ()) volumes

/-! ### The whole -/

/-- `adopt_host_user`. -/
def adoptHostUser (spec : ContainerSpec) (identity : IdentityPlan) (user : CurrentUser)
    (facts : CreatedContainerFacts) (passwd : ContainerFile) : Act Unit := do
  let group ← readIdentityFile facts groupPath
  let contents ← Program.ofExcept
    (withAdditionalUsers (editPasswdForHostUser passwd.contents user identity.home)
      identity.additionalUsers)
  writeContainerFile passwdPath { passwd with contents := contents }
  let contents :=
    withAdditionalGroups ((editGroupForHostUser group.contents user).getD group.contents)
      identity.additionalUsers
  writeGroupIfChanged group contents
  let owner : DirectoryOwner := ⟨user.uid, user.gid⟩
  prepareHome identity.home owner facts
  claimCaches spec.volumes owner

/-- What `apply_plan` warns of where the image's own user is left alone. -/
def warnOfImageUser (spec : ContainerSpec) (identity : IdentityPlan)
    (imageUser : Text) : Act Unit :=
  if identity.hostUser.isNone then do
    let daemon ← daemonClass
    match imageUserWarning spec.name imageUser daemon with
    | some warning => warn warning
    | none => pure ()
  else pure ()

/-- The groups, which only additional users are a reason to touch where the image's own user is left
alone. -/
def readGroupToExtend (identity : IdentityPlan) (facts : CreatedContainerFacts) :
    Act (Option ContainerFile) :=
  if identity.additionalUsers = [] then pure none
  else do
    let group ← readIdentityFile facts groupPath
    pure (some group)

/-- The groups of the additional users. -/
def writeExtendedGroup (identity : IdentityPlan) : Option ContainerFile → Act Unit
  | none => pure ()
  | some group =>
      writeGroupIfChanged group (withAdditionalGroups group.contents identity.additionalUsers)

/-- What `apply_plan` does where the image's own user is left alone.  A named user that the image
lacks can't start, which the runtime reports when it tries. -/
def keepImageUser (identity : IdentityPlan) (imageUser : Text) (facts : CreatedContainerFacts)
    (passwd : ContainerFile) : Act Unit :=
  let edit := editPasswdHome passwd.contents imageUser identity.home
  match edit.homeOwner with
  | none => pure ()
  | some owner => do
      let contents ← Program.ofExcept (withAdditionalUsers edit.contents identity.additionalUsers)
      let group ← readGroupToExtend identity facts
      writeContainerFile passwdPath { passwd with contents := contents }
      writeExtendedGroup identity group
      prepareHome identity.home owner facts

/-- `apply_plan`. -/
def applyPlan (spec : ContainerSpec) (identity : IdentityPlan) : Act Unit := do
  let (imageUser, facts) ← createdContainerFacts
  warnOfImageUser spec identity imageUser
  let passwd ← readIdentityFile facts passwdPath
  match identity.hostUser with
  | some user => adoptHostUser spec identity user facts passwd
  | none => keepImageUser identity imageUser facts passwd

/-- `apply`. -/
def apply (spec : ContainerSpec) : Act Unit :=
  match spec.identity with
  | none => pure ()
  | some identity =>
      (applyPlan spec identity).mapError fun e =>
        s!"Failed to apply 'identity' to container '{spec.name}': {e}"

end Identity

end Ratect
