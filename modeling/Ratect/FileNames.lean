import Ratect.Paths

/-! # Replacing the name of a file

`Path::with_file_name` on the text of a path, which keeps the rest of the text as it is written, and
`Path::with_extension`.  In components both replace the last one (`ofText_withFileName`), and a name
put at the end of a path stays there when the path is joined and cleaned (`join_concat`,
`clean_concat`). -/

namespace Paths

/-! ### The last component -/

theorem fileName_eq_some {p : Path} {n : Name} :
    fileName p = some n ↔ ∃ dir, p = dir ++ [.normal n] := by
  unfold fileName
  constructor
  · intro h
    split at h
    · next name hlast =>
        cases h
        exact List.getLast?_eq_some_iff.mp hlast
    · cases h
  · rintro ⟨dir, rfl⟩
    rw [List.getLast?_concat]

theorem parent_concat (dir : Path) (n : Name) : parent (dir ++ [.normal n]) = some dir := by
  unfold parent
  rw [List.getLast?_concat, List.dropLast_concat]

theorem fileName_concat (dir : Path) (n : Name) : fileName (dir ++ [.normal n]) = some n :=
  fileName_eq_some.mpr ⟨dir, rfl⟩

theorem join_concat (base dir : Path) (n : Name) :
    join base (dir ++ [.normal n]) = join base dir ++ [.normal n] := by
  have habsolute : isAbsolute (dir ++ [.normal n]) = isAbsolute dir := by
    cases dir <;> rfl
  unfold join
  rw [habsolute]
  split
  · rfl
  · split
    · rfl
    · rw [List.filter_append, List.append_assoc]
      rfl

theorem clean_concat {p : Path} (h : isAbsolute p = true) (n : Name) :
    clean (p ++ [.normal n]) = clean p ++ [.normal n] := by
  cases p with
  | nil => cases h
  | cons c p =>
      have hc : c = .root := by simpa [isAbsolute] using h
      subst hc
      obtain ⟨out, hout⟩ := foldl_cleanStep_over_root p []
      have hfold : List.foldl cleanStep [] (.root :: p) = out ++ [.root] := hout
      have hname : cleanStep (out ++ [Component.root]) (.normal n) =
          .normal n :: (out ++ [.root]) := by
        cases out with
        | nil => rfl
        | cons d out => cases d <;> rfl
      have hstack : ofStack (out ++ [Component.root]) = (out ++ [Component.root]).reverse := by
        cases out <;> rfl
      unfold clean
      rw [List.foldl_append, hfold, List.foldl_cons, List.foldl_nil, hname, hstack]
      exact List.reverse_cons

/-! ### With another name -/

/-- What is left of the parts between separators once the last component is gone, with what follows
it and the separators and dots before it; what leads the path stays. -/
def partsBefore (parts : List (List Char)) : List (List Char) :=
  match (parts.rdropWhile fun part => (component part).isNone).dropLast with
  | [] => []
  | first :: rest => first :: rest.rdropWhile fun part => (component part).isNone

/-- `Path::with_file_name`, in text: a file name is replaced, and where there is none the new one is
pushed. -/
def withFileNameText (t name : List Char) : List Char :=
  if (fileName (ofText t)).isSome then ['/'].intercalate (partsBefore (t.splitOn '/') ++ [name])
  else if t = [] ∨ t.getLast? = some '/' then t ++ name
  else t ++ '/' :: name

example : withFileNameText "a//b/./c.yml".toList "d".toList = "a//b/d".toList ∧
    withFileNameText "/c.yml/".toList "d".toList = "/d".toList ∧
    withFileNameText "..".toList "d".toList = "../d".toList := by decide

theorem partsBefore_subset (parts : List (List Char)) : partsBefore parts ⊆ parts := by
  have hsub : (parts.rdropWhile fun part => (component part).isNone).dropLast ⊆ parts :=
    List.Subset.trans (List.dropLast_subset _) (List.rdropWhile_prefix _ _).subset
  unfold partsBefore
  split
  · exact List.nil_subset _
  · next first rest heq =>
      rw [heq] at hsub
      refine List.Subset.trans ?_ hsub
      exact List.cons_subset_cons _ (List.rdropWhile_prefix _ _).subset

/-- What leads a path, by its parts. -/
def leadOf : List (List Char) → Path
  | [] :: _ :: _ => [.root]
  | ['.'] :: _ => [.cur]
  | _ => []

theorem lead_eq (t : List Char) : lead t = leadOf (t.splitOn '/') := by
  cases t with
  | nil => rfl
  | cons c t =>
      cases hparts : t.splitOn '/' with
      | nil => exact absurd hparts (List.splitOn_ne_nil '/' t)
      | cons first rest =>
          have hsplit := List.splitOn_cons_eq_if_modifyHead (a := '/') c t
          rw [hparts, List.modifyHead_cons] at hsplit
          unfold lead
          rw [hsplit]
          by_cases hc : c = '/'
          · subst hc
            rfl
          · have hslash : ¬ (c == '/') = true := by simpa using hc
            rw [if_neg hslash, if_neg (by simpa using hc)]
            by_cases hdot : c :: first = ['.']
            · rw [hdot]
              rfl
            · have hlead : leadOf ((c :: first) :: rest) = [] := by
                unfold leadOf
                split
                · next heq => cases heq
                · next heq => exact absurd (List.cons.inj heq).1 hdot
                · rfl
              rw [List.head?_cons, if_neg fun h => hdot (Option.some.inj h), hlead]

theorem not_mem_of_mem_splitOn {t part : List Char} (h : part ∈ t.splitOn '/') : '/' ∉ part := by
  induction t generalizing part with
  | nil =>
      rw [List.splitOn_nil, List.mem_singleton] at h
      rw [h]
      exact List.not_mem_nil
  | cons c t ih =>
      rw [List.splitOn_cons_eq_if_modifyHead] at h
      split at h
      · rcases List.mem_cons.mp h with rfl | h
        · exact List.not_mem_nil
        · exact ih h
      · next hc =>
          cases hparts : t.splitOn '/' with
          | nil => exact absurd hparts (List.splitOn_ne_nil '/' t)
          | cons first rest =>
              rw [hparts, List.modifyHead_cons] at h
              rw [hparts] at ih
              rcases List.mem_cons.mp h with rfl | h
              · rw [List.mem_cons, not_or]
                exact ⟨fun heq => hc (by simp [← heq]), ih List.mem_cons_self⟩
              · exact ih (List.mem_cons_of_mem _ h)

/-- Parts that are no component may go from the end. -/
theorem filterMap_rdropWhile (parts : List (List Char)) :
    (parts.rdropWhile fun part => (component part).isNone).filterMap component =
      parts.filterMap component := by
  induction parts using List.reverseRecOn with
  | nil => rfl
  | append_singleton parts part ih =>
      rw [List.rdropWhile_concat, List.filterMap_append]
      split
      · next hnone =>
          rw [ih, List.filterMap_cons_none (Option.isNone_iff_eq_none.mp hnone),
            List.filterMap_nil, List.append_nil]
      · rw [List.filterMap_append]

/-- The parts of a path that ends in a name: those before it, the name's own, and parts that are no
component. -/
theorem parts_of_fileName {t : List Char} {n : Name} (h : fileName (ofText t) = some n) :
    ∃ before part,
      (t.splitOn '/').rdropWhile (fun part => (component part).isNone) = before ++ [part] ∧
      component part = some (.normal n) := by
  obtain ⟨dir, hdir⟩ := fileName_eq_some.mp h
  have hkept := filterMap_rdropWhile (t.splitOn '/')
  cases hparts : ((t.splitOn '/').rdropWhile fun part =>
    (component part).isNone) using List.reverseRecOn with
  | nil =>
      rw [hparts, List.filterMap_nil] at hkept
      have hlast : (lead t).getLast? = some (.normal n) := by
        have := congrArg List.getLast? hdir
        rw [List.getLast?_concat] at this
        unfold ofText at this
        rwa [← hkept, List.append_nil] at this
      unfold lead at hlast
      split at hlast
      · cases hlast
      · split at hlast <;> cases hlast
  | append_singleton before part =>
      refine ⟨before, part, rfl, ?_⟩
      have hne : (t.splitOn '/').rdropWhile (fun part => (component part).isNone) ≠ [] := by
        rw [hparts]
        simp
      have hnot := List.rdropWhile_last_not _ _ hne
      simp only [hparts, List.getLast_concat] at hnot
      obtain ⟨c, hc⟩ :=
        Option.ne_none_iff_exists'.mp fun h => hnot (Option.isNone_iff_eq_none.mpr h)
      have hlast := congrArg List.getLast? hdir
      unfold ofText at hlast
      rw [← hkept, hparts, List.filterMap_append, List.filterMap_cons_some hc,
        List.filterMap_nil, ← List.append_assoc, List.getLast?_concat,
        List.getLast?_concat] at hlast
      rw [hc, hlast]

theorem filterMap_partsBefore {parts before : List (List Char)} {part : List Char}
    (h : parts.rdropWhile (fun part => (component part).isNone) = before ++ [part]) :
    (partsBefore parts).filterMap component = before.filterMap component := by
  unfold partsBefore
  rw [h, List.dropLast_concat]
  cases before with
  | nil => rfl
  | cons first rest =>
      have hrest := filterMap_rdropWhile rest
      cases hfirst : component first with
      | none => rw [List.filterMap_cons_none hfirst, List.filterMap_cons_none hfirst, hrest]
      | some c => rw [List.filterMap_cons_some hfirst, List.filterMap_cons_some hfirst, hrest]

/-- With parts after it, the first part alone says what leads a path. -/
theorem leadOf_cons (first : List Char) {l r : List (List Char)} (hl : l ≠ []) (hr : r ≠ []) :
    leadOf (first :: l) = leadOf (first :: r) := by
  obtain ⟨a, l, rfl⟩ := List.exists_cons_of_ne_nil hl
  obtain ⟨b, r, rfl⟩ := List.exists_cons_of_ne_nil hr
  unfold leadOf
  split
  · next heq =>
      cases heq
      rfl
  · next heq =>
      cases heq
      rfl
  · next hroot hcur =>
      split
      · next heq =>
          cases heq
          exact absurd rfl (hroot a l)
      · next heq =>
          cases heq
          exact absurd rfl (hcur (a :: l))
      · rfl

/-- What leads a path is left by taking its name away, and a name put in its place leads nothing. -/
theorem leadOf_partsBefore {parts before : List (List Char)} {part : List Char} {n : Name}
    (name : Name) (h : parts.rdropWhile (fun part => (component part).isNone) = before ++ [part])
    (hpart : component part = some (.normal n)) :
    leadOf (partsBefore parts ++ [name.text]) = leadOf parts := by
  obtain ⟨dropped, hdropped⟩ := List.rdropWhile_prefix (fun part => (component part).isNone) parts
  rw [h] at hdropped
  unfold partsBefore
  rw [h, List.dropLast_concat, ← hdropped]
  have hname : ∀ (t : List Char) (m : Name) (rest : List (List Char)),
      component t = some (.normal m) →
      leadOf (t :: rest) = [] := by
    intro t m rest ht
    unfold leadOf
    split
    · next heq =>
        cases heq
        cases ht
    · next heq =>
        cases heq
        cases ht
    · rfl
  cases before with
  | nil =>
      rw [List.nil_append, List.nil_append, hname name.text name [] (component_name name)]
      exact (hname part n dropped hpart).symm
  | cons first rest =>
      exact leadOf_cons first (by simp) (by simp)

/-- A path that ends in a name has the new one in its place. -/
theorem ofText_withFileNameText {t : List Char} {n : Name} (h : fileName (ofText t) = some n)
    (name : Name) :
    ofText (withFileNameText t name.text) = (ofText t).dropLast ++ [.normal name] := by
  obtain ⟨before, part, hparts, hpart⟩ := parts_of_fileName h
  have hsplit : (withFileNameText t name.text).splitOn '/' =
      partsBefore (t.splitOn '/') ++ [name.text] := by
    unfold withFileNameText
    rw [if_pos (by rw [h]; rfl)]
    refine List.splitOn_intercalate _ ?_ (by simp)
    intro l hl
    rcases List.mem_append.mp hl with hl | hl
    · exact not_mem_of_mem_splitOn (partsBefore_subset _ hl)
    · rw [List.mem_singleton.mp hl]
      exact name.isName.2.2.2
  have hold : ofText t = lead t ++ before.filterMap component ++ [.normal n] := by
    unfold ofText
    rw [← filterMap_rdropWhile (t.splitOn '/'), hparts, List.filterMap_append,
      List.filterMap_cons_some hpart, List.filterMap_nil, List.append_assoc]
  rw [hold, List.dropLast_concat]
  unfold ofText
  rw [lead_eq, lead_eq, hsplit, leadOf_partsBefore name hparts hpart, List.filterMap_append,
    filterMap_partsBefore hparts,
    List.filterMap_cons_some (component_name name), List.filterMap_nil,
    List.append_assoc]

theorem mem_intercalate {sep c : Char} {parts : List (List Char)}
    (h : c ∈ [sep].intercalate parts) : c = sep ∨ ∃ part ∈ parts, c ∈ part := by
  induction parts with
  | nil => exact absurd h List.not_mem_nil
  | cons part parts ih =>
      cases parts with
      | nil =>
          rw [List.intercalate_singleton] at h
          exact Or.inr ⟨part, List.mem_cons_self, h⟩
      | cons next parts =>
          rw [List.intercalate_cons_cons, List.mem_append, List.mem_append, List.mem_singleton] at h
          rcases h with (h | h) | h
          · exact Or.inr ⟨part, List.mem_cons_self, h⟩
          · exact Or.inl h
          · rcases ih h with h | ⟨part', hpart, hc⟩
            · exact Or.inl h
            · exact Or.inr ⟨part', List.mem_cons_of_mem _ hpart, hc⟩

theorem mem_of_mem_part {t part : List Char} {c : Char} (hpart : part ∈ t.splitOn '/')
    (hc : c ∈ part) : c ∈ t := by
  have hmem : ∀ parts : List (List Char), part ∈ parts → c ∈ ['/'].intercalate parts := by
    intro parts
    induction parts with
    | nil => exact fun h => absurd h List.not_mem_nil
    | cons first parts ih =>
        intro h
        cases parts with
        | nil =>
            rw [List.intercalate_singleton, ← List.mem_singleton.mp h]
            exact hc
        | cons next parts =>
            rw [List.intercalate_cons_cons]
            rcases List.mem_cons.mp h with rfl | h
            · exact List.mem_append_left _ (List.mem_append_left _ hc)
            · exact List.mem_append_right _ (ih h)
  have hwhole := hmem _ hpart
  rwa [List.intercalate_splitOn] at hwhole

/-- A character of the new text is the old one's, the new name's or a separator. -/
theorem mem_withFileNameText {t name : List Char} {c : Char} (h : c ∈ withFileNameText t name) :
    c ∈ t ∨ c ∈ name ∨ c = '/' := by
  unfold withFileNameText at h
  split at h
  · rcases mem_intercalate h with rfl | ⟨part, hpart, hc⟩
    · exact Or.inr (Or.inr rfl)
    · rcases List.mem_append.mp hpart with hpart | hpart
      · exact Or.inl (mem_of_mem_part (partsBefore_subset _ hpart) hc)
      · exact Or.inr (Or.inl (List.mem_singleton.mp hpart ▸ hc))
  · split at h
    · exact (List.mem_append.mp h).imp_right Or.inl
    · rcases List.mem_append.mp h with h | h
      · exact Or.inl h
      · exact Or.inr ((List.mem_cons.mp h).symm)

/-- A character of the last component's name is one of the text. -/
theorem mem_of_mem_fileName {t : List Char} {n : Name} (h : fileName (ofText t) = some n) {c : Char}
    (hc : c ∈ n.text) : c ∈ t := by
  obtain ⟨before, part, hparts, hpart⟩ := parts_of_fileName h
  have hmem : part ∈ t.splitOn '/' := by
    apply (List.rdropWhile_prefix (fun part => (component part).isNone) (t.splitOn '/')).subset
    rw [hparts]
    exact List.mem_append_right _ List.mem_cons_self
  have htext : part = n.text := by
    unfold component at hpart
    split at hpart
    · cases hpart
    · split at hpart
      · cases hpart
        rfl
      · cases hpart
  exact mem_of_mem_part hmem (htext ▸ hc)

/-! ### With another extension -/

namespace Name

/-- The name up to its last `.`, unless that leads it. -/
def stem (n : Name) : List Char :=
  match n.text.reverse.dropWhile (· ≠ '.') with
  | [] | ['.'] => n.text
  | _ :: before => before.reverse

theorem stem_ne_nil (n : Name) : n.stem ≠ [] := by
  unfold stem
  split
  · exact n.isName.1
  · exact n.isName.1
  · next before hdot heq =>
      rw [ne_eq, List.reverse_eq_nil_iff]
      rintro rfl
      have hhead := List.head?_dropWhile_not (· ≠ '.') n.text.reverse
      rw [heq] at hhead
      simp only [List.head?_cons, ne_eq, decide_not, Bool.not_eq_false', decide_eq_true_eq] at hhead
      exact hdot hhead rfl

theorem stem_subset (n : Name) : n.stem ⊆ n.text := by
  unfold stem
  split
  · exact List.Subset.refl _
  · exact List.Subset.refl _
  · next before hdot heq =>
      intro c hc
      have hmem : c ∈ n.text.reverse.dropWhile (· ≠ '.') := by
        rw [heq]
        exact List.mem_cons_of_mem _ (List.mem_reverse.mp hc)
      exact List.mem_reverse.mp ((List.dropWhile_sublist _).subset hmem)

theorem slash_not_mem_stem (n : Name) : '/' ∉ n.stem := fun h => n.isName.2.2.2 (n.stem_subset h)

/-- The name with the extension of a TOML file. -/
def toml (n : Name) : Name where
  text := n.stem ++ ['.', 't', 'o', 'm', 'l']
  isName := by
    have hlast : (n.stem ++ ['.', 't', 'o', 'm', 'l']).getLast? = some 'l' := by
      rw [List.getLast?_append]
      rfl
    refine ⟨by simp, ?_, ?_, ?_⟩
    · intro h
      rw [h] at hlast
      cases hlast
    · intro h
      rw [h] at hlast
      cases hlast
    · rw [List.mem_append, not_or]
      exact ⟨n.slash_not_mem_stem, by decide⟩

end Name

/-- `Path::with_extension`, for a TOML file. -/
def withTomlExtension (p : Path) : Path :=
  match fileName p with
  | none => p
  | some n => p.dropLast ++ [.normal n.toml]

theorem withTomlExtension_concat (dir : Path) (n : Name) :
    withTomlExtension (dir ++ [.normal n]) = dir ++ [.normal n.toml] := by
  unfold withTomlExtension
  rw [fileName_concat]
  simp only [List.dropLast_concat]

theorem Name.stem_toml (n : Name) : n.toml.stem = n.stem := by
  have hdrop : n.toml.text.reverse.dropWhile (· ≠ '.') = '.' :: n.stem.reverse := by
    show (n.stem ++ ['.', 't', 'o', 'm', 'l']).reverse.dropWhile (· ≠ '.') = _
    rw [List.reverse_append]
    rfl
  unfold Name.stem
  rw [hdrop]
  split
  · next heq => cases heq
  · next heq => exact absurd (List.reverse_eq_nil_iff.mp (List.cons.inj heq).2) n.stem_ne_nil
  · next heq => rw [← (List.cons.inj heq).2, List.reverse_reverse]; rfl

/-- A file that has the extension keeps its name. -/
theorem withTomlExtension_idem (p : Path) :
    withTomlExtension (withTomlExtension p) = withTomlExtension p := by
  cases hname : fileName p with
  | none =>
      have hsame : withTomlExtension p = p := by
        unfold withTomlExtension
        rw [hname]
      rw [hsame, hsame]
  | some n =>
      obtain ⟨dir, rfl⟩ := fileName_eq_some.mp hname
      have hname' : n.toml.toml = n.toml := by
        rw [Name.mk.injEq]
        show n.toml.stem ++ _ = n.stem ++ _
        rw [n.stem_toml]
      rw [withTomlExtension_concat, withTomlExtension_concat, hname']

theorem toml_ne_tilde (n : Name) : n.toml.text ≠ ['~'] := by
  intro h
  have hlast : n.toml.text.getLast? = some 'l' := by
    show (n.stem ++ ['.', 't', 'o', 'm', 'l']).getLast? = some 'l'
    rw [List.getLast?_append]
    rfl
  rw [h] at hlast
  cases hlast

theorem extension_toml (dir : Path) (n : Name) :
    extension (dir ++ [.normal n.toml]) = some ['t', 'o', 'm', 'l'] := by
  have hreversed : n.toml.text.reverse = 'l' :: 'm' :: 'o' :: 't' :: '.' :: n.stem.reverse := by
    show (n.stem ++ ['.', 't', 'o', 'm', 'l']).reverse = _
    rw [List.reverse_append]
    rfl
  have hdrop : n.toml.text.reverse.dropWhile (· ≠ '.') = '.' :: n.stem.reverse := by
    rw [hreversed]
    rfl
  have htake : n.toml.text.reverse.takeWhile (· ≠ '.') = ['l', 'm', 'o', 't'] := by
    rw [hreversed]
    rfl
  unfold extension
  rw [fileName_concat]
  simp only [Option.bind_some]
  rw [hdrop, htake]
  split
  · next heq => cases heq
  · next heq => exact absurd (List.reverse_eq_nil_iff.mp (List.cons.inj heq).2) n.stem_ne_nil
  · rfl

end Paths
