import Ratect.Includes
import Ratect.Expressions

/-! # Host paths

Where a host path of a container points and whether its bundle may reach there: `anchor_path` and
the checks around it (`config.rs`), and `Boundary::check_path_allowed` (`include_trust.rs`).  A path
is judged lexically first and then with symbolic links resolved, as far as it exists. -/

namespace Ratect

open Paths (Path)

/-! ### Real locations -/

section real

variable (machine : Machine)

/-- The loop of `real_path_as_far_as_it_exists`, over an ancestor and the names below it.  Every
round takes a name off, so as many rounds as the path has components suffice. -/
def realPathFrom (path : Path) : ℕ → Path → List Paths.Name → Except FsError Path
  | 0, _, _ => .ok path
  | rounds + 1, existing, missingTail =>
      match machine.canonicalize existing with
      | .ok canonical =>
          .ok (missingTail.foldl (fun real part => Paths.join real [.normal part]) canonical)
      | .error (.other message) => .error (.other message)
      | .error .notFound =>
          match Paths.parent existing, Paths.fileName existing with
          | some parent, some name => realPathFrom path rounds parent (name :: missingTail)
          | _, _ => .ok path

/-- `real_path_as_far_as_it_exists`. -/
def realPathAsFarAsItExists (path : Path) : Except FsError Path :=
  realPathFrom machine path (path.length + 1) path []

/-- `Boundary::describe_in_checkout`. -/
def Boundary.describeInCheckout (boundary : Boundary) (path : Path) : Option String :=
  if path = boundary.repoDir then some s!"the checkout of the bundle {boundary.bundle.id.display}"
  else if Paths.startsWith path boundary.repoDir then some (boundary.describe path)
  else none

/-- `Boundary::real_path`. -/
def Boundary.realPath (boundary : Boundary) (path : Path) : Except String Path :=
  match realPathAsFarAsItExists machine path with
  | .ok real => .ok real
  | .error _ =>
      match boundary.describeInCheckout path with
      | some described => .error (s!"Cannot determine where {described} really points, so its " ++
          "containment cannot be checked.")
      | none => .error (s!"Cannot determine where '{printablePath path}' really points, so the " ++
          s!"containment for the Git repository {boundary.bundle.id.display} cannot be checked.")

/-- How a path escapes. -/
inductive Escape where
  | lexical
  | viaSymlink (real : Path)

/-- `Boundary::refuse_escape`. -/
def Boundary.refuseEscape (boundary : Boundary) (resolved projectDir : Path) (field : HostPathField)
    (escape : Escape) : String :=
  let how := match escape with
    | .lexical => ""
    | .viaSymlink real => s!" (via a symlink, to '{printablePath real}')"
  let (path, repository) := match boundary.describeInCheckout resolved with
    | some described => (described, "its checkout")
    | none => (s!"'{printablePath resolved}'",
        s!"the Git repository {boundary.bundle.id.display} it was included from")
  s!"Path {path} escapes both {repository} and the project directory '{displayPath projectDir}'{how} — a " ++
    s!"'{field.name}' path of a container reached through a Git include must resolve within one of the " ++
    "two. If you trust this bundle to reach that path, set 'allow_host_paths' to true on the include " ++
    s!"entry for '{boundary.bundle.id.remote.display}' in your own configuration."

/-- The lexical half of the check: inside the checkout or the project directory. -/
def Boundary.inside (boundary : Boundary) (projectDir path : Path) : Bool :=
  Paths.startsWith path boundary.repoDir || Paths.startsWith path projectDir

/-- `Boundary::check_path_allowed`. -/
def Boundary.checkPathAllowed (boundary : Boundary) (resolved projectDir : Path)
    (field : HostPathField) : Except String Unit :=
  let resolved := Paths.clean resolved
  if boundary.bundle.trust.hostPaths then .ok ()
  else if !boundary.inside projectDir resolved then
    .error (boundary.refuseEscape resolved projectDir field .lexical)
  else do
    let real ← boundary.realPath machine resolved
    let realRepo ← boundary.realPath machine boundary.repoDir
    if Paths.startsWith real realRepo then .ok ()
    else do
      let realProject ← boundary.realPath machine projectDir
      if Paths.startsWith real realProject then .ok ()
      else .error (boundary.refuseEscape resolved projectDir field (.viaSymlink real))

end real

/-! ### Anchoring -/

/-- `Anchor`: what a supplier's host path is resolved against, and the boundary that contains it
with the project directory as its second root. -/
structure Anchor where
  basePath : Path
  boundary : Option (Boundary × Path)
  batectShaped : Bool

section anchor

variable (machine : Machine)

/-- The absolute, clean path that a host path stands for. -/
def resolveHostPath (path : Text) (anchor : Anchor) : Except String Path :=
  if '\x00' ∈ path then .error s!"'{String.ofList (printable path)}' is not a valid path"
  else
    match expandHomeDirectory machine path with
    | .error e => .error e.message
    | .ok (some homeRelative) => .ok (Paths.clean homeRelative)
    | .ok none =>
        if Paths.isAbsolute (Paths.ofText path) then .ok (Paths.clean (Paths.ofText path))
        else
          match machine.currentDir with
          | .error message => .error message
          | .ok dir =>
              .ok (Paths.clean (Paths.join dir (Paths.join anchor.basePath (Paths.ofText path))))

/-- `anchor_path`. -/
def anchorPath (path : Text) (anchor : Anchor) (contained : HostPathField) :
    Except String Path := do
  let resolved ← resolveHostPath machine path anchor
  match anchor.boundary with
  | none => return resolved
  | some (boundary, projectDir) => do
      boundary.checkPathAllowed machine resolved projectDir contained
      return resolved

variable (unicode : Char → Bool)

/-- `check_literal_path`: a literal path of a Git-included container is judged at load. -/
def checkLiteralPath (path : Text) (anchor : Anchor)
    (contained : HostPathField) : Except String Unit :=
  if anchor.boundary.isSome && !Expressions.containsExpression unicode path then
    (anchorPath machine path anchor contained).map fun _ => ()
  else .ok ()

end anchor

/-! ### Home directories inside a container -/

/-- `check_home_directory`. -/
def checkHomeDirectory (field : String) (homeDirectory : Text) : Except String Unit :=
  let shown := String.ofList (printable homeDirectory)
  if homeDirectory.head? ≠ some '/' then
    .error s!"has an invalid '{field}': '{shown}' is not an absolute path"
  else if ':' ∈ homeDirectory ∨ homeDirectory.any isControl then
    .error (s!"has an invalid '{field}': '{shown}' contains a ':' or a control character, which would " ++
      "corrupt the /etc/passwd entry it is written into")
  else if (Paths.fileName (Paths.ofText homeDirectory)).isNone then
    .error s!"has an invalid '{field}': '{shown}' has no directory name to create"
  else .ok ()

/-- `identity_home_has_a_parent_component`. -/
def identityHomeHasAParentComponent (home : Text) : Bool := (Paths.ofText home).contains .parent

/-- `check_identity_home`. -/
def checkIdentityHome (home : Text) : Except String Unit := do
  checkHomeDirectory "identity.home" home
  if identityHomeHasAParentComponent home then
    .error s!"has an invalid 'identity.home': '{String.ofList (printable home)}' contains a '..'"
  else .ok ()

end Ratect
