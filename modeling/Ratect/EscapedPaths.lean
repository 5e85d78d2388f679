import Ratect.ConversionChecks

/-! # Escaped paths

What escaping a literal does to the path that it is: its parts are escaped one by one, so a name is
another name and everything else stays (`kind_ofText_escape`).  A home that passed its check as a
`run_as_current_user.home_directory` so passes it as the `identity.home` that it is converted to. -/

namespace Paths

/-- A component, but for its name. -/
def Component.kind : Component → Option Component
  | .normal _ => none
  | c => some c

theorem isSome_fileName (p : Path) :
    (fileName p).isSome = true ↔ (p.map Component.kind).getLast? = some none := by
  unfold fileName
  rw [List.getLast?_map]
  cases p.getLast? with
  | none => simp
  | some c => cases c <;> simp [Component.kind]

theorem contains_parent (p : Path) :
    p.contains .parent = true ↔ some .parent ∈ p.map Component.kind := by
  rw [List.contains_iff_mem, List.mem_map]
  constructor
  · exact fun h => ⟨.parent, h, rfl⟩
  · rintro ⟨c, hc, hkind⟩
    cases c with
    | parent => exact hc
    | root => cases hkind
    | cur => cases hkind
    | normal => cases hkind

end Paths

namespace Ratect

variable {special : List Char}

namespace Expressions

/-- What a text is escaped to has its characters, and the backslashes before some of them. -/
theorem mem_escape {c : Char} (hc : c ≠ '\\') {s : Text} : c ∈ escape s special ↔ c ∈ s := by
  unfold escape
  rw [List.mem_flatMap]
  constructor
  · rintro ⟨x, hx, hin⟩
    split at hin
    · rcases List.mem_cons.mp hin with rfl | hin
      · exact absurd rfl hc
      · rwa [List.mem_singleton.mp hin]
    · rwa [List.mem_singleton.mp hin]
  · intro hin
    refine ⟨c, hin, ?_⟩
    split
    · exact List.mem_cons_of_mem _ List.mem_cons_self
    · exact List.mem_cons_self

/-- Text without what is escaped is left alone, and nothing else is escaped to it. -/
theorem escape_eq_iff (hspecial : '\\' ∈ special) {s plain : Text}
    (hplain : ∀ c ∈ plain, c ∉ special) : escape s special = plain ↔ s = plain := by
  have hself : escape plain special = plain := by
    unfold escape
    rw [List.flatMap_congr fun c hc => if_neg (hplain c hc)]
    exact List.flatMap_singleton' plain
  constructor
  · intro h
    calc s = unescape (escape s special) := (unescape_escape hspecial s).symm
      _ = unescape (escape plain special) := by rw [h, hself]
      _ = plain := unescape_escape hspecial plain
  · rintro rfl
    exact hself

theorem head?_escape (hspecial : '/' ∉ special) (s : Text) :
    (escape s special).head? = some '/' ↔ s.head? = some '/' := by
  unfold escape
  cases s with
  | nil => exact Iff.rfl
  | cons c s =>
      rw [List.flatMap_cons]
      split
      · next hc =>
          constructor
          · intro h
            cases h
          · rintro ⟨⟩
            exact absurd hc hspecial
      · exact Iff.rfl

theorem splitOn_escape (hspecial : '/' ∉ special) (s : Text) :
    (escape s special).splitOn '/' = (s.splitOn '/').map (escape · special) := by
  induction s with
  | nil => rfl
  | cons c s ih =>
      have hcons : escape (c :: s) special =
          (if c ∈ special then ['\\', c] else [c]) ++ escape s special := rfl
      obtain ⟨part, parts, hparts⟩ := List.exists_cons_of_ne_nil (List.splitOn_ne_nil '/' s)
      have hnext : (escape s special).splitOn '/' =
          escape part special :: parts.map (escape · special) := by
        rw [ih, hparts, List.map_cons]
      rw [hcons]
      split
      · next hc =>
          have hslash : c ≠ '/' := fun heq => hspecial (heq ▸ hc)
          rw [List.cons_append, List.cons_append, List.nil_append,
            List.splitOn_cons_eq_if_modifyHead, if_neg (by decide),
              List.splitOn_cons_eq_if_modifyHead, if_neg (by simpa using hslash), hnext,
                List.splitOn_cons_eq_if_modifyHead,
            if_neg (by simpa using hslash), hparts]
          simp [escape, hc]
      · next hc =>
          rw [List.cons_append, List.nil_append, List.splitOn_cons_eq_if_modifyHead,
            List.splitOn_cons_eq_if_modifyHead]
          split
          · rw [ih]
            rfl
          · rw [hnext, hparts]
            simp [escape, hc]

end Expressions

section escaped

variable (hbackslash : '\\' ∈ special) (hdot : '.' ∉ special)

include hbackslash hdot

theorem kind_component_escape (t : Text) :
    (Paths.component (Expressions.escape t special)).map Paths.Component.kind =
      (Paths.component t).map Paths.Component.kind := by
  have hplain : ∀ plain : Text,
      (∀ c ∈ plain, c = '.') → (Expressions.escape t special = plain ↔ t = plain) :=
    fun plain hdots => Expressions.escape_eq_iff hbackslash fun c hc hin => hdot (hdots c hc ▸ hin)
  have hparent := hplain ['.', '.'] (by simp)
  have hname : Paths.IsName (Expressions.escape t special) ↔ Paths.IsName t := by
    unfold Paths.IsName
    rw [Ne, Ne, Ne, hplain [] (by simp), hplain ['.'] (by simp), hparent,
      Expressions.mem_escape (by decide)]
  unfold Paths.component
  by_cases hdots : t = ['.', '.']
  · rw [if_pos (hparent.mpr hdots), if_pos hdots]
  · rw [if_neg fun h => hdots (hparent.mp h), if_neg hdots]
    by_cases h : Paths.IsName t
    · rw [dif_pos (hname.mpr h), dif_pos h]
      rfl
    · rw [dif_neg fun h' => h (hname.mp h'), dif_neg h]

theorem kind_ofText_escape (hslash : '/' ∉ special) (t : Text) :
    (Paths.ofText (Expressions.escape t special)).map Paths.Component.kind =
      (Paths.ofText t).map Paths.Component.kind := by
  have hlead : Paths.lead (Expressions.escape t special) = Paths.lead t := by
    unfold Paths.lead
    simp only [Expressions.head?_escape hslash]
    split
    · rfl
    · have hcur : ((Expressions.escape t special).splitOn '/').head? = some ['.'] ↔
          (t.splitOn '/').head? = some ['.'] := by
        rw [Expressions.splitOn_escape hslash, List.head?_map]
        cases (t.splitOn '/').head? with
        | none => exact Iff.rfl
        | some part =>
            rw [Option.map_some, Option.some.injEq, Option.some.injEq]
            exact Expressions.escape_eq_iff hbackslash (by simpa using hdot)
      simp only [hcur]
  unfold Paths.ofText
  rw [List.map_append, List.map_append, hlead, Expressions.splitOn_escape hslash,
    List.filterMap_map, List.map_filterMap, List.map_filterMap]
  congr 1
  exact List.filterMap_congr fun part _ => kind_component_escape hbackslash hdot part

end escaped

theorem checkHomeDirectory_eq_ok {field : String} {home : Text} :
    checkHomeDirectory field home = .ok () ↔
      home.head? = some '/' ∧ ':' ∉ home ∧ (∀ c ∈ home, isControl c = false) ∧
      (Paths.fileName (Paths.ofText home)).isSome = true := by
  unfold checkHomeDirectory
  simp only
  split
  · next hhead => simp [hhead]
  · next hhead =>
      split
      · next hchars =>
          refine iff_of_false (by simp) ?_
          rintro ⟨-, hcolon, hcontrol, -⟩
          rcases hchars with hin | hany
          · exact hcolon hin
          · obtain ⟨c, hc, hctl⟩ := List.any_eq_true.mp hany
            rw [hcontrol c hc] at hctl
            cases hctl
      · next hchars =>
          obtain ⟨hcolon, hcontrol⟩ := not_or.mp hchars
          split
          · next hname =>
              refine iff_of_false (by simp) ?_
              rintro ⟨-, -, -, hsome⟩
              rw [Option.isNone_iff_eq_none.mp hname] at hsome
              cases hsome
          · next hname =>
              refine iff_of_true rfl ⟨by
                simpa using hhead, hcolon, ?_, by simpa [Option.isSome_iff_ne_none] using hname⟩
              simpa using hcontrol

/-- A home that is escaped is refused for what it was refused for before. -/
theorem checkIdentityHome_escape (hbackslash : '\\' ∈ special) (hslash : '/' ∉ special)
    (hdot : '.' ∉ special) {home : Text} {field : String}
    (hhome : checkHomeDirectory field home = .ok ()) :
    checkIdentityHome (Expressions.escape home special) = .ok () ↔
      identityHomeHasAParentComponent home = false := by
  have hkind := kind_ofText_escape hbackslash hdot hslash home
  obtain ⟨hhead, hcolon, hcontrol, hname⟩ := checkHomeDirectory_eq_ok.mp hhome
  have hcheck : checkHomeDirectory "identity.home" (Expressions.escape home special) = .ok () := by
    refine checkHomeDirectory_eq_ok.mpr
      ⟨(Expressions.head?_escape hslash home).mpr hhead, ?_, ?_, ?_⟩
    · rwa [Expressions.mem_escape (by decide)]
    · intro c hc
      by_cases hbackslash : c = '\\'
      · rw [hbackslash]
        decide
      · exact hcontrol c ((Expressions.mem_escape hbackslash).mp hc)
    · rwa [Paths.isSome_fileName, hkind, ← Paths.isSome_fileName]
  have hparent : identityHomeHasAParentComponent (Expressions.escape home special) =
      identityHomeHasAParentComponent home := by
    unfold identityHomeHasAParentComponent
    rw [Bool.eq_iff_iff, Paths.contains_parent, hkind, ← Paths.contains_parent]
  unfold checkIdentityHome
  rw [hcheck, hparent]
  cases identityHomeHasAParentComponent home with
  | true => exact iff_of_false (fun hrefused => nomatch hrefused) Bool.noConfusion
  | false => exact iff_of_true rfl rfl

/-- A home that is made a literal is refused for a `..` alone, unless it is still read as an
expression. -/
theorem checkIdentity_literalAsExpression {unicode : Char → Bool} {home : Text} {field : String}
    {users : List Config.AdditionalUser} (hhome : checkHomeDirectory field home = .ok ()) :
    checkIdentity unicode ⟨Expressions.literalAsExpression unicode home, users⟩ = .ok () ↔
      (identityHomeHasAParentComponent home = true → becomesExpression unicode home = true) := by
  have hcheck : checkIdentityHome (Expressions.literalAsExpression unicode home) = .ok () ↔
      identityHomeHasAParentComponent home = false := by
    rcases Expressions.literalAsExpression_cases unicode home with ⟨heq, -⟩ | heq <;> rw [heq]
    · exact checkIdentityHome_escape (by decide) (by decide) (by decide) hhome
    · exact checkIdentityHome_escape (by decide) (by decide) (by decide) hhome
  unfold checkIdentity becomesExpression
  split
  · next hexpression => exact iff_of_true rfl fun _ => hexpression
  · next hliteral =>
      rw [hcheck, ← Bool.not_eq_true]
      exact ⟨fun hdotless hdots => absurd hdots hdotless, fun himp hdots => hliteral (himp hdots)⟩

end Ratect
