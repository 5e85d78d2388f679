import Ratect.ExpressionGrammar
import Ratect.FieldRules
import Ratect.PathConfinement

/-! # Values without references, at load and at evaluation

A value that may hold an expression but holds no reference is judged twice: at load on the text as
written, and at evaluation on what it evaluates to, which is the text with its escapes removed
(`interpolate_literal`).  The two judgements agree on a host path, whatever the file system holds,
exactly if both texts are refused for where they point, or name the same path, or nothing is
contained; and on an `identity.home` exactly if it holds what both refuse or has the same shape with
and without its escapes (`literals_judged_alike`). -/

namespace Ratect

open Paths (Path)

/-! ### What a literal evaluates to -/

namespace Expressions

/-- The text with its escapes removed. -/
def unescape : Text → Text
  | [] => []
  | '\\' :: c :: rest => c :: unescape rest
  | c :: rest => c :: unescape rest

theorem unescape_cons {c : Char} (hc : c ≠ '\\') (rest : Text) :
    unescape (c :: rest) = c :: unescape rest := by
  rw [unescape]
  rintro d rest' rfl -
  exact hc rfl

variable {unicode : Char → Bool}

/-- A split without references has the value of its text without escapes. -/
theorem denote_literal {ps : List Piece} {input : Text} (h : Splits unicode ps input)
    (hliteral : ps.any Piece.isReference = false) (hostEnv : Text → Option Text)
    (configVars : Text → Option (Option Text)) :
    denote hostEnv configVars ps = some (unescape input) := by
  induction h with
  | nil => rfl
  | @cons p ps rest hp _ ih =>
      rw [List.any_cons, Bool.or_eq_false_iff] at hliteral
      cases p with
      | plain c =>
          simp only [denote, Piece.value, Piece.text, List.singleton_append,
            unescape_cons hp.1, ih hliteral.2]
          rfl
      | escape c =>
          simp only [denote, Piece.value, ih hliteral.2]
          rfl
      | reference r => cases hliteral.1

/-- A well-formed value without references. -/
def IsLiteral (unicode : Char → Bool) (value : Text) : Prop :=
  checkSyntax unicode value = .ok () ∧ containsExpression unicode value = false

instance (unicode : Char → Bool) (value : Text) : Decidable (IsLiteral unicode value) :=
  inferInstanceAs (Decidable (_ ∧ _))

/-- A literal evaluates to itself without escapes, whatever the variables hold. -/
theorem interpolate_literal {value : Text} (h : IsLiteral unicode value)
    (hostEnv : Text → Option Text) (configVars : Text → Option (Option Text)) :
    interpolate unicode value hostEnv configVars = .ok (unescape value) := by
  obtain ⟨ps, hps⟩ := (checkSyntax_ok_iff value).mp h.1
  have hliteral := h.2
  rw [containsExpression_splits hps] at hliteral
  exact (interpolate_ok_iff value hostEnv configVars _).mpr
    ⟨ps, hps, denote_literal hps hliteral hostEnv configVars⟩

/-- Removing escapes takes nothing away but backslashes. -/
theorem mem_unescape {c : Char} (hc : c ≠ '\\') {value : Text} :
    c ∈ unescape value ↔ c ∈ value := by
  induction value using unescape.induct with
  | case1 => exact Iff.rfl
  | case2 d rest ih => simp [unescape, ih, hc]
  | case3 d rest hd ih =>
      rw [unescape]
      · rw [List.mem_cons, List.mem_cons, ih]
      · exact hd

end Expressions

/-! ### Host paths -/

section paths

variable {boundary : Boundary} {projectDirectory : Path} {anchor : Anchor}

/-- A path that is refused whatever the file system holds: there is none, or it is outside. -/
def Misplaced (boundary : Boundary) (projectDirectory : Path) : Except String Path → Prop
  | .error _ => True
  | .ok path =>
      boundary.bundle.trust.hostPaths = false ∧ boundary.inside projectDirectory path = false

instance (boundary : Boundary) (projectDirectory : Path) (resolved : Except String Path) :
    Decidable (Misplaced boundary projectDirectory resolved) :=
  match resolved with
  | .error _ => inferInstanceAs (Decidable True)
  | .ok _ => inferInstanceAs (Decidable (_ ∧ _))

/-- Two paths that are refused on the same file systems. -/
def JudgedAlike (boundary : Boundary) (projectDirectory : Path)
    (written denoted : Except String Path) : Prop :=
  (Misplaced boundary projectDirectory written ∧ Misplaced boundary projectDirectory denoted) ∨
    (¬ Misplaced boundary projectDirectory written ∧ ¬ Misplaced boundary projectDirectory denoted ∧
      (boundary.bundle.trust.hostPaths = true ∨ written = denoted))

instance (boundary : Boundary) (projectDirectory : Path) (written denoted : Except String Path) :
    Decidable (JudgedAlike boundary projectDirectory written denoted) :=
  inferInstanceAs (Decidable (_ ∨ (_ ∧ _ ∧ (_ ∨ _))))

/-- The machine with other files. -/
def Machine.withFiles (machine : Machine) (canonicalize : Path → Except FsError Path) : Machine :=
  { machine with canonicalize := canonicalize }

/-- Whether a path passes, once it is resolved. -/
def passesCheck (machine : Machine) (boundary : Boundary) (projectDirectory : Path)
    (field : HostPathField) :
    Except String Path → Bool
  | .error _ => false
  | .ok path => (boundary.checkPathAllowed machine path projectDirectory field).isOk

theorem isOk_anchorPath {machine : Machine} {text : Text} {field : HostPathField}
    (hanchor : anchor.boundary = some (boundary, projectDirectory)) :
    (anchorPath machine text anchor field).isOk =
      passesCheck machine boundary projectDirectory field
        (resolveHostPath machine text anchor) := by
  unfold anchorPath
  cases resolveHostPath machine text anchor with
  | error e => rfl
  | ok path =>
      rw [hanchor]
      simp only [passesCheck, bind, Except.bind]
      cases boundary.checkPathAllowed machine path projectDirectory field with
      | error e => rfl
      | ok u => rfl

/-- A misplaced path never passes. -/
theorem not_passes_of_misplaced {machine : Machine} {field : HostPathField}
    {resolved : Except String Path} (hclean : ∀ path, resolved = .ok path → Paths.clean path = path)
    (h : Misplaced boundary projectDirectory resolved) :
    passesCheck machine boundary projectDirectory field resolved = false := by
  cases resolved with
  | error e => rfl
  | ok path =>
      obtain ⟨htrust, houtside⟩ := h
      simp only [passesCheck, Boundary.checkPathAllowed, hclean path rfl, htrust, houtside]
      rfl

/-- A file system that holds every path, with no symbolic link, except one that cannot be read. -/
def unreadableAt (bad : Option Path) (path : Path) : Except FsError Path :=
  if some path = bad then .error (.other "Permission denied (os error 13)") else .ok path

theorem realPath_readable {machine : Machine} {bad : Option Path} {path : Path}
    (h : some path ≠ bad) :
    boundary.realPath (machine.withFiles (unreadableAt bad)) path = .ok path := by
  unfold Boundary.realPath realPathAsFarAsItExists realPathFrom
  simp [Machine.withFiles, unreadableAt, h]

theorem realPath_unreadable (boundary : Boundary) (machine : Machine) (path : Path) :
    ∃ message,
      boundary.realPath (machine.withFiles (unreadableAt (some path))) path = .error message := by
  unfold Boundary.realPath realPathAsFarAsItExists realPathFrom
  simp only [Machine.withFiles, unreadableAt]
  cases boundary.describeInCheckout path with
  | none => exact ⟨_, rfl⟩
  | some described => exact ⟨_, rfl⟩

/-- A path that cannot be read does not pass. -/
theorem not_passes_unreadable {machine : Machine} {field : HostPathField} {path : Path}
    (htrust : boundary.bundle.trust.hostPaths = false) (hclean : Paths.clean path = path) :
    passesCheck (machine.withFiles (unreadableAt (some path))) boundary
      projectDirectory field (.ok path) =
      false := by
  obtain ⟨message, hreal⟩ := realPath_unreadable boundary machine path
  simp only [passesCheck, Boundary.checkPathAllowed, hclean, htrust, hreal]
  cases boundary.inside projectDirectory path with
  | false => rfl
  | true => rfl

/-- A path inside passes where it can be read, and so can what it is compared with. -/
theorem passes_readable {machine : Machine} {field : HostPathField} {path : Path}
    {bad : Option Path} (hclean : Paths.clean path = path)
    (hinside : boundary.inside projectDirectory path = true) (hpath : some path ≠ bad)
    (hrepo : some boundary.repoDir ≠ bad)
    (hproject : boundary.repoDir <+: path ∨ some projectDirectory ≠ bad) :
    passesCheck (machine.withFiles (unreadableAt bad)) boundary projectDirectory field
      (.ok path) = true := by
  simp only [passesCheck, Boundary.checkPathAllowed, hclean, hinside, realPath_readable hpath,
    realPath_readable hrepo, bind, Except.bind, Bool.not_true, Bool.false_eq_true, if_false]
  split
  · rfl
  · split
    · rfl
    · next houtside =>
        rw [Paths.startsWith_iff] at houtside
        have hproject' := hproject.resolve_left houtside
        have hinside' : Paths.startsWith path projectDirectory = true := by
          unfold Boundary.inside at hinside
          rw [Bool.or_eq_true, Paths.startsWith_iff] at hinside
          exact hinside.resolve_left houtside
        rw [realPath_readable hproject']
        simp only [hinside', if_true]
        rfl

/-- A path passes in a trusted bundle. -/
theorem passes_trusted {machine : Machine} {field : HostPathField} {path : Path}
    (htrust : boundary.bundle.trust.hostPaths = true) :
    passesCheck machine boundary projectDirectory field (.ok path) = true := by
  simp only [passesCheck, Boundary.checkPathAllowed, htrust, if_true]
  rfl

/-- A path that is not misplaced passes where everything can be read. -/
theorem passes_of_not_misplaced {machine : Machine} {field : HostPathField}
    {resolved : Except String Path} (hclean : ∀ path, resolved = .ok path → Paths.clean path = path)
    (h : ¬ Misplaced boundary projectDirectory resolved) :
    passesCheck (machine.withFiles (unreadableAt none)) boundary projectDirectory field
      resolved = true := by
  cases resolved with
  | error e => exact absurd trivial h
  | ok path =>
      by_cases htrust : boundary.bundle.trust.hostPaths = true
      · exact passes_trusted htrust
      · have hinside : boundary.inside projectDirectory path = true := by
          by_contra houtside
          exact h ⟨Bool.eq_false_iff.mpr htrust, Bool.eq_false_iff.mpr houtside⟩
        exact passes_readable (hclean path rfl) hinside (Option.some_ne_none _)
          (Option.some_ne_none _)
          (Or.inr (Option.some_ne_none _))

/-- Of two paths inside, one can be made unreadable without the other. -/
theorem exists_unreadable (repo project : Path) {p q : Path} (h : p ≠ q) :
    (some q ≠ some p ∧ some repo ≠ some p ∧ (repo <+: q ∨ some project ≠ some p)) ∨
      (some p ≠ some q ∧ some repo ≠ some q ∧ (repo <+: p ∨ some project ≠ some q)) := by
  simp only [ne_eq, Option.some.injEq]
  by_cases hp : repo = p
  · subst hp
    exact Or.inr ⟨h, h, Or.inl (List.prefix_refl _)⟩
  · by_cases hq : repo = q
    · subst hq
      exact Or.inl ⟨Ne.symm h, hp, Or.inl (List.prefix_refl _)⟩
    · by_cases hproject : project = p
      · subst hproject
        exact Or.inr ⟨h, hq, Or.inr h⟩
      · exact Or.inl ⟨Ne.symm h, hp, Or.inr hproject⟩

/-- Two resolved paths pass on the same file systems exactly if they are judged alike. -/
theorem passesCheck_eq_iff (machine : Machine) (field : HostPathField)
    {written denoted : Except String Path}
    (hwritten : ∀ path, written = .ok path → Paths.clean path = path)
    (hdenoted : ∀ path, denoted = .ok path → Paths.clean path = path) :
    (∀ canonicalize, passesCheck (machine.withFiles canonicalize) boundary
      projectDirectory field written =
        passesCheck (machine.withFiles canonicalize) boundary projectDirectory field denoted) ↔
      JudgedAlike boundary projectDirectory written denoted := by
  constructor
  · intro hagree
    by_cases hw : Misplaced boundary projectDirectory written <;>
      by_cases hd : Misplaced boundary projectDirectory denoted
    · exact Or.inl ⟨hw, hd⟩
    · have := hagree (unreadableAt none)
      rw [not_passes_of_misplaced hwritten hw, passes_of_not_misplaced hdenoted hd] at this
      cases this
    · have := hagree (unreadableAt none)
      rw [passes_of_not_misplaced hwritten hw, not_passes_of_misplaced hdenoted hd] at this
      cases this
    · refine Or.inr ⟨hw, hd, ?_⟩
      by_contra hne
      rw [not_or, Bool.not_eq_true] at hne
      obtain ⟨htrust, hne⟩ := hne
      cases written with
      | error e => exact hw trivial
      | ok p =>
          cases denoted with
          | error e => exact hd trivial
          | ok q =>
              have hp : boundary.inside projectDirectory p = true := by
                by_contra houtside
                exact hw ⟨htrust, Bool.eq_false_iff.mpr houtside⟩
              have hq : boundary.inside projectDirectory q = true := by
                by_contra houtside
                exact hd ⟨htrust, Bool.eq_false_iff.mpr houtside⟩
              have hpq : p ≠ q := fun heq => hne (heq ▸ rfl)
              rcases exists_unreadable boundary.repoDir projectDirectory hpq with
                ⟨h1, h2, h3⟩ | ⟨h1, h2, h3⟩
              · have := hagree (unreadableAt (some p))
                rw [not_passes_unreadable htrust (hwritten p rfl),
                  passes_readable (hdenoted q rfl) hq h1 h2 h3] at this
                cases this
              · have := hagree (unreadableAt (some q))
                rw [not_passes_unreadable htrust (hdenoted q rfl),
                  passes_readable (hwritten p rfl) hp h1 h2 h3] at this
                cases this
  · rintro (⟨hw, hd⟩ | ⟨hw, hd, htrust | heq⟩) canonicalize
    · rw [not_passes_of_misplaced hwritten hw, not_passes_of_misplaced hdenoted hd]
    · cases written with
      | error e => exact absurd trivial hw
      | ok p =>
          cases denoted with
          | error e => exact absurd trivial hd
          | ok q => rw [passes_trusted htrust, passes_trusted htrust]
    · rw [heq]

end paths

/-- A host path of a container that may hold an expression, with the entry it stands in. -/
inductive ExpressionPath where
  | volume (mount : Config.LocalVolumeMount)
  | buildDirectory (path : Text)
  | buildSecret (name : String) (path : Text)
  | buildSsh (id : String) (path : Text)

namespace ExpressionPath

/-- The value. -/
def value : ExpressionPath → Text
  | volume mount => mount.host
  | buildDirectory path => path
  | buildSecret _ path => path
  | buildSsh _ path => path

/-- The value is read as an expression; a compact volume of a Batect-format file is not. -/
def IsExpression (batectShaped : Bool) : ExpressionPath → Prop
  | volume mount => mount.localIsExpression batectShaped = true
  | _ => True

/-- The part of `check_values` about the entry. -/
def checkAtLoad (machine : Machine) (unicode : Char → Bool) (anchor : Anchor) :
    ExpressionPath → Except String Unit
  | volume mount => checkVolume machine unicode anchor (.host mount)
  | buildDirectory path => checkLiteralPath machine unicode path anchor .buildDirectory
  | buildSecret _ path => checkSecret machine unicode anchor (.path path)
  | buildSsh id path => checkAgents machine unicode anchor [] [⟨id, [path]⟩]

/-- What `evaluate_container` finds wrong with the entry. -/
def errorsAtEvaluation (scope : Scope) (anchor : Anchor) : ExpressionPath → List String
  | volume mount => (scope.evaluateVolume anchor (.host mount)).2
  | buildDirectory path => (scope.evaluateBuildDirectory anchor path).2
  | buildSecret name path => (scope.evaluateSecret anchor (name, .path path)).2
  | buildSsh id path => (scope.evaluateAgent anchor ⟨id, [path]⟩).2

/-- The field of a message about the path. -/
def field : ExpressionPath → HostPathField
  | volume _ => .volumes
  | buildDirectory _ => .buildDirectory
  | buildSecret _ _ => .buildSecrets
  | buildSsh _ _ => .buildSsh

variable {anchor : Anchor} {boundary : Boundary} {projectDirectory : Path}

theorem isOk_map {α β : Type} {f : α → β} (x : Except String α) : (x.map f).isOk = x.isOk := by
  cases x with
  | error e => rfl
  | ok a => rfl

/-- Of a Git-included container, the load judges the text as written. -/
theorem isOk_checkAtLoad (machine : Machine) {unicode : Char → Bool} (path : ExpressionPath)
    (hanchor : anchor.boundary = some (boundary, projectDirectory))
    (hexpression : path.IsExpression anchor.batectShaped)
    (hliteral : Expressions.IsLiteral unicode path.value) :
    (path.checkAtLoad machine unicode anchor).isOk =
      passesCheck machine boundary projectDirectory path.field
        (resolveHostPath machine path.value anchor) := by
  have hcheck : ∀ field, (checkLiteralPath machine unicode path.value anchor field).isOk =
      (anchorPath machine path.value anchor field).isOk := by
    intro field
    unfold checkLiteralPath
    rw [hanchor, hliteral.2]
    exact isOk_map _
  rw [← isOk_anchorPath hanchor, ← hcheck]
  cases path with
  | volume mount =>
      have hread : mount.localIsExpression anchor.batectShaped = true := hexpression
      simp only [checkAtLoad, checkVolume, hread, if_true]
      rfl
  | buildDirectory path => rfl
  | buildSecret name path => rfl
  | buildSsh id path =>
      simp only [checkAtLoad, checkAgents, field, value, Except.ensure,
        List.not_mem_nil, not_false_eq_true, if_true, List.forM]
      cases checkLiteralPath machine unicode path anchor .buildSsh with
      | error e => rfl
      | ok u => rfl

theorem storeOrRecord_errors {α : Type} (target : α) (x : Except String α) :
    (storeOrRecord target x).2 = [] ↔ x.isOk = true := by
  cases x with
  | error e => exact ⟨fun h => (List.cons_ne_nil _ _ h).elim, fun h => (Bool.false_ne_true h).elim⟩
  | ok a => exact ⟨fun _ => rfl, fun _ => rfl⟩

/-- Of a Git-included container, evaluation judges the text without its escapes. -/
theorem errorsAtEvaluation_eq_nil (scope : Scope) (path : ExpressionPath)
    (hanchor : anchor.boundary = some (boundary, projectDirectory))
    (hexpression : path.IsExpression anchor.batectShaped)
    (hliteral : Expressions.IsLiteral scope.unicode path.value) :
    path.errorsAtEvaluation scope anchor = [] ↔
      passesCheck scope.machine boundary projectDirectory path.field
        (resolveHostPath scope.machine (Expressions.unescape path.value) anchor) = true := by
  have hresolve : ∀ said field, (scope.resolvePath said field path.value anchor).isOk =
      (anchorPath scope.machine (Expressions.unescape path.value) anchor field).isOk := by
    intro said field
    simp only [Scope.resolvePath, Scope.evaluateValue,
      Expressions.interpolate_literal hliteral, bind, Except.bind]
    cases anchorPath scope.machine (Expressions.unescape path.value) anchor field with
    | error e => rfl
    | ok resolved => rfl
  rw [← isOk_anchorPath hanchor]
  cases path with
  | volume mount =>
      have hread : mount.localIsExpression anchor.batectShaped = true := hexpression
      rw [← hresolve "'volumes'"]
      simp only [errorsAtEvaluation, Scope.evaluateVolume, hread, if_true]
      exact storeOrRecord_errors mount.host
        (scope.resolvePath "'volumes'" .volumes mount.host anchor)
  | buildDirectory path =>
      rw [← hresolve "'build_directory'"]
      exact storeOrRecord_errors path
        (scope.resolvePath "'build_directory'" .buildDirectory path anchor)
  | buildSecret name path =>
      rw [← hresolve s!"'build_secrets.{printableString name}'"]
      exact storeOrRecord_errors path
        (scope.resolvePath s!"'build_secrets.{printableString name}'" .buildSecrets path anchor)
  | buildSsh id path =>
      rw [← hresolve s!"'build_ssh' entry '{printableString id}'"]
      simp only [errorsAtEvaluation, Scope.evaluateAgent, evaluateAll,
        List.flatMap_cons, List.flatMap_nil, List.append_nil]
      exact storeOrRecord_errors path
        (scope.resolvePath s!"'build_ssh' entry '{printableString id}'" .buildSsh path anchor)

end ExpressionPath

/-! ### Home directories -/

/-- The home holds what would corrupt an entry of `/etc/passwd`. -/
def CorruptsPasswd (home : Text) : Prop := ':' ∈ home ∨ home.any isControl = true

instance (home : Text) : Decidable (CorruptsPasswd home) := inferInstanceAs (Decidable (_ ∨ _))

/-- The home is absolute, has a name to create and no `..`. -/
def HomeShape (home : Text) : Prop :=
  home.head? = some '/' ∧ (Paths.fileName (Paths.ofText home)).isSome = true ∧
    identityHomeHasAParentComponent home = false

instance (home : Text) : Decidable (HomeShape home) := inferInstanceAs (Decidable (_ ∧ _ ∧ _))

theorem isOk_checkIdentityHome (home : Text) :
    (checkIdentityHome home).isOk = true ↔ ¬ CorruptsPasswd home ∧ HomeShape home := by
  unfold checkIdentityHome checkHomeDirectory
  by_cases hcorrupts : CorruptsPasswd home
  · have hrefused : ¬ (¬ CorruptsPasswd home ∧ HomeShape home) := fun h => h.1 hcorrupts
    simp only [hrefused, iff_false,
      if_pos (show ':' ∈ home ∨ home.any isControl = true from hcorrupts)]
    by_cases hhead : home.head? = some '/'
    · rw [if_neg (not_not.mpr hhead)]
      exact Bool.false_ne_true
    · rw [if_pos hhead]
      exact Bool.false_ne_true
  · simp only [hcorrupts, not_false_eq_true, true_and,
      if_neg (show ¬ (':' ∈ home ∨ home.any isControl = true) from hcorrupts)]
    unfold HomeShape
    by_cases hhead : home.head? = some '/'
    · rw [if_neg (not_not.mpr hhead)]
      cases Paths.fileName (Paths.ofText home) <;> cases identityHomeHasAParentComponent home <;>
        simp [hhead, bind, Except.bind, Except.isOk, Except.toBool]
    · rw [if_pos hhead]
      exact ⟨fun h => (Bool.false_ne_true h).elim, fun h => absurd h.1 hhead⟩

theorem corruptsPasswd_unescape (home : Text) :
    CorruptsPasswd (Expressions.unescape home) ↔ CorruptsPasswd home := by
  unfold CorruptsPasswd
  rw [Expressions.mem_unescape (by decide), List.any_eq_true, List.any_eq_true]
  have hcontrol : ∀ c, isControl c = true → (c ∈ Expressions.unescape home ↔ c ∈ home) := by
    intro c hc
    apply Expressions.mem_unescape
    rintro rfl
    cases hc
  constructor
  · rintro (hcolon | ⟨c, hmem, hc⟩)
    · exact Or.inl hcolon
    · exact Or.inr ⟨c, (hcontrol c hc).mp hmem, hc⟩
  · rintro (hcolon | ⟨c, hmem, hc⟩)
    · exact Or.inl hcolon
    · exact Or.inr ⟨c, (hcontrol c hc).mpr hmem, hc⟩

theorem isOk_checkIdentity {unicode : Char → Bool} (identity : Config.Identity)
    (hliteral : Expressions.IsLiteral unicode identity.home) :
    (checkIdentity unicode identity).isOk = (checkIdentityHome identity.home).isOk := by
  unfold checkIdentity
  rw [hliteral.2]
  rfl

theorem isOk_evaluateHome (scope : Scope) (home : Text)
    (hliteral : Expressions.IsLiteral scope.unicode home) :
    (scope.evaluateHome home).isOk = (checkIdentityHome (Expressions.unescape home)).isOk := by
  simp only [Scope.evaluateHome, Scope.evaluateValue,
    Expressions.interpolate_literal hliteral, bind, Except.bind]
  cases checkIdentityHome (Expressions.unescape home) with
  | error e => rfl
  | ok u => rfl

/-! ### The two judgements -/

/-- Load and evaluation refuse a host path together, whatever files the machine has. -/
def ExpressionPath.SameJudgement (path : ExpressionPath) (scope : Scope) (anchor : Anchor) : Prop :=
  ∀ canonicalize,
    (path.checkAtLoad (scope.machine.withFiles canonicalize) scope.unicode anchor).isOk = true ↔
    path.errorsAtEvaluation { scope with
      machine := scope.machine.withFiles canonicalize } anchor = []

/-- **Judged at load and at evaluation.**  A value without references is judged at load as written
and at evaluation without its escapes.  A host path of a Git-included container is refused by both
on the same file systems exactly if the two texts are both misplaced, or neither is and they name
the same path or the bundle's host paths are trusted; an `identity.home` exactly if it holds a `:`
or a control character, or has the same shape with and without its escapes. -/
theorem literals_judged_alike (scope : Scope) (anchor : Anchor) (boundary : Boundary)
    (projectDirectory : Path) (hanchor : anchor.boundary = some (boundary, projectDirectory)) :
    (∀ path : ExpressionPath, path.IsExpression anchor.batectShaped →
      Expressions.IsLiteral scope.unicode path.value →
        (path.SameJudgement scope anchor ↔
          JudgedAlike boundary projectDirectory (resolveHostPath scope.machine path.value anchor)
            (resolveHostPath scope.machine (Expressions.unescape path.value) anchor))) ∧
      ∀ identity : Config.Identity, Expressions.IsLiteral scope.unicode identity.home →
        (((checkIdentity scope.unicode identity).isOk = true ↔
          (scope.evaluateHome identity.home).isOk = true) ↔
          CorruptsPasswd identity.home ∨
            (HomeShape identity.home ↔ HomeShape (Expressions.unescape identity.home))) := by
  constructor
  · intro path hexpression hliteral
    rw [← passesCheck_eq_iff scope.machine path.field (fun _ h => resolveHostPath_clean h)
      (fun _ h => resolveHostPath_clean h)]
    apply forall_congr'
    intro canonicalize
    have heval :=
      path.errorsAtEvaluation_eq_nil { scope with machine := scope.machine.withFiles canonicalize }
      hanchor hexpression hliteral
    rw [path.isOk_checkAtLoad _ hanchor hexpression hliteral, heval, ← Bool.eq_iff_iff]
    exact Iff.rfl
  · intro identity hliteral
    rw [isOk_checkIdentity identity hliteral, isOk_evaluateHome scope _ hliteral,
      isOk_checkIdentityHome, isOk_checkIdentityHome, corruptsPasswd_unescape]
    by_cases hcorrupts : CorruptsPasswd identity.home
    · simp [hcorrupts]
    · simp [hcorrupts]

/-- A machine with no files, and a container of a bundle on it. -/
def bareScope : Scope :=
  { machine := Machine.inMemory (Paths.ofText "/p".toList) (Paths.ofText "/h".toList) [] []
    unicode := fun _ => false
    hostEnv := fun _ => none
    configVars := [] }

/-- The anchor of a container that a bundle declares. -/
def bundleAnchor : Anchor :=
  { basePath := Paths.ofText "/c/a".toList
    boundary :=
      some (⟨Paths.ofText "/c/a".toList, ⟨⟨⟨"a"⟩, "1"⟩, ⟨false, false⟩⟩⟩, Paths.ofText "/p".toList)
    batectShaped := false }

/-- Escapes that hide neither a separator nor a dot leave a home its shape, and an escaped `$` names
another path. -/
theorem literals_judged_alike_escapes :
    ((checkIdentity (fun _ => false) ⟨"/home/a\\$b".toList, []⟩).isOk = true ↔
        (bareScope.evaluateHome "/home/a\\$b".toList).isOk = true) ∧
      ¬ (ExpressionPath.buildDirectory "a\\$b".toList).SameJudgement bareScope bundleAnchor := by
  have h := literals_judged_alike bareScope bundleAnchor
    ⟨Paths.ofText "/c/a".toList, ⟨⟨⟨"a"⟩, "1"⟩, ⟨false, false⟩⟩⟩ (Paths.ofText "/p".toList) rfl
  constructor
  · exact (h.2 ⟨"/home/a\\$b".toList, []⟩ (by decide +kernel)).mpr (Or.inr (by decide +kernel))
  · intro hsame
    have := (h.1 (.buildDirectory "a\\$b".toList) trivial (by decide +kernel)).mp hsame
    revert this
    decide +kernel

/-- A path that the load accepts and evaluation refuses for being outside. -/
def hiddenSlash : ExpressionPath := .buildDirectory "\\/etc/passwd".toList

/-- A path that the load refuses and evaluation accepts. -/
def escapedSlash : ExpressionPath := .buildDirectory "/c\\/a/x".toList

/-- A home that the load refuses and evaluation accepts. -/
def escapedHome : Text := "\\/home/x".toList

/-- All three are well formed and hold no reference. -/
theorem escaped_literal_misjudged :
    (Expressions.IsLiteral bareScope.unicode hiddenSlash.value ∧
        (hiddenSlash.checkAtLoad bareScope.machine bareScope.unicode bundleAnchor).isOk = true ∧
        hiddenSlash.errorsAtEvaluation bareScope bundleAnchor ≠ []) ∧
      (Expressions.IsLiteral bareScope.unicode escapedSlash.value ∧
        (escapedSlash.checkAtLoad bareScope.machine bareScope.unicode bundleAnchor).isOk = false ∧
        escapedSlash.errorsAtEvaluation bareScope bundleAnchor = []) ∧
      Expressions.IsLiteral bareScope.unicode escapedHome ∧
      (checkIdentity bareScope.unicode ⟨escapedHome, []⟩).isOk = false ∧
      (bareScope.evaluateHome escapedHome).isOk = true := by
  decide +kernel

end Ratect
