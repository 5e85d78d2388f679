import Mathlib

/-! # Unix paths

A path as `std::path::Path` compares it: the list of its components, with repeated separators, a
trailing separator and every `.` but a leading one already gone.  `ofText` reads a path, `toText`
writes one, and `clean` is the lexical normalisation of the `path_clean` crate.

`clean` runs a stack over the components.  A stack it can leave behind is left alone by a second
run (`Settled`), which gives `clean_clean`; over an absolute path the stack holds names only, so a
cleaned absolute path has no `..` in it (`clean_absolute`). -/

namespace Paths

/-- The text of a component that names a directory entry. -/
def IsName (t : List Char) : Prop := t ≠ [] ∧ t ≠ ['.'] ∧ t ≠ ['.', '.'] ∧ '/' ∉ t

instance (t : List Char) : Decidable (IsName t) := inferInstanceAs (Decidable (_ ∧ _ ∧ _ ∧ _))

/-- The name of a directory entry. -/
structure Name where
  text : List Char
  isName : IsName text
deriving DecidableEq

/-- `std::path::Component`. -/
inductive Component where
  | root
  | cur
  | parent
  | normal (name : Name)
deriving DecidableEq

/-- A path, by its components. -/
abbrev Path := List Component

instance Path.lawfulBEq : LawfulBEq Path := inferInstanceAs (LawfulBEq (List Component))

/-! ### Reading and writing -/

/-- The component that the text between two separators is, if any: nothing and `.` are none. -/
def component (t : List Char) : Option Component :=
  if t = ['.', '.'] then some .parent
  else if h : IsName t then some (.normal ⟨t, h⟩)
  else none

/-- What leads a path: the root, or the `.` of a relative one. -/
def lead (t : List Char) : Path :=
  if t.head? = some '/' then [.root]
  else if (t.splitOn '/').head? = some ['.'] then [.cur]
  else []

/-- `Path::components`. -/
def ofText (t : List Char) : Path := lead t ++ (t.splitOn '/').filterMap component

/-- The text of a component. -/
def Component.toText : Component → List Char
  | root => []
  | cur => ['.']
  | parent => ['.', '.']
  | normal name => name.text

/-- The text of a path collected from components. -/
def toText (p : Path) : List Char :=
  if p = [.root] then ['/'] else ['/'].intercalate (p.map Component.toText)

/-! ### Operations -/

/-- `Path::is_absolute`. -/
def isAbsolute (p : Path) : Bool := p.head? == some .root

/-- `Path::join`: an absolute path replaces the base, and the leading `.` of a relative one is
dropped unless there is nothing before it. -/
def join (base p : Path) : Path :=
  if isAbsolute p then p else if base = [] then p else base ++ p.filter (· ≠ .cur)

/-- `Path::parent`. -/
def parent (p : Path) : Option Path :=
  match p.getLast? with
  | none | some .root => none
  | some _ => some p.dropLast

/-- `Path::file_name`. -/
def fileName (p : Path) : Option Name :=
  match p.getLast? with
  | some (.normal name) => some name
  | _ => none

/-- `Path::extension`: what follows the last `.` of the file name, unless that leads it. -/
def extension (p : Path) : Option (List Char) :=
  (fileName p).bind fun name =>
    let reversed := name.text.reverse
    match reversed.dropWhile (· ≠ '.') with
    | [] | ['.'] => none
    | _ :: _ => some (reversed.takeWhile (· ≠ '.')).reverse

/-- `Path::starts_with`: component by component, with none interpreted. -/
def startsWith (p base : Path) : Bool := base.isPrefixOf p

theorem startsWith_iff {p base : Path} : startsWith p base = true ↔ base <+: p := by
  unfold startsWith
  exact List.isPrefixOf_iff_prefix

/-! ### Cleaning -/

/-- One component onto the cleaned ones, the last of which is the head. -/
def cleanStep : List Component → Component → List Component
  | out, .cur => out
  | .root :: out, .parent => .root :: out
  | .normal _ :: out, .parent => out
  | out, c => c :: out

/-- The path of a cleaned stack; the empty one is `.`. -/
def ofStack : List Component → Path
  | [] => [.cur]
  | c :: out => (c :: out).reverse

/-- `PathClean::clean`: `.` and `..` removed lexically. -/
def clean (p : Path) : Path := ofStack (p.foldl cleanStep [])

/-- A stack that cleaning leaves as it is. -/
def Settled (out : List Component) : Prop := out.reverse.foldl cleanStep [] = out

theorem settled_nil : Settled [] := rfl

theorem settled_cons {c : Component} {out : List Component} (h : Settled out)
    (hc : cleanStep out c = c :: out) : Settled (c :: out) := by
  unfold Settled at *
  rw [List.reverse_cons, List.foldl_append, h]
  exact hc

theorem settled_tail {n : Name} {out : List Component} (h : Settled (.normal n :: out)) :
    Settled out := by
  unfold Settled at *
  rw [List.reverse_cons, List.foldl_append] at h
  exact List.tail_eq_of_cons_eq h

theorem Settled.step {out : List Component} (h : Settled out) (c : Component) :
    Settled (cleanStep out c) := by
  cases c with
  | cur => exact h
  | root => exact settled_cons h rfl
  | normal n => exact settled_cons h rfl
  | parent =>
      match out, h with
      | [], h => exact settled_cons h rfl
      | .root :: out, h => exact h
      | .normal n :: out, h => exact settled_tail h
      | .cur :: out, h => exact settled_cons h rfl
      | .parent :: out, h => exact settled_cons h rfl

theorem settled_foldl (p : Path) {out : List Component} (h : Settled out) :
    Settled (p.foldl cleanStep out) := by
  induction p generalizing out with
  | nil => exact h
  | cons c p ih => exact ih (h.step c)

/-- Cleaning a cleaned path changes nothing. -/
@[simp]
theorem clean_clean (p : Path) : clean (clean p) = clean p := by
  have h : Settled (p.foldl cleanStep []) := settled_foldl p settled_nil
  unfold clean
  cases hout : p.foldl cleanStep [] with
  | nil => rfl
  | cons c out =>
      rw [hout] at h
      show ofStack ((c :: out).reverse.foldl cleanStep []) = ofStack (c :: out)
      rw [h]

/-! ### Absolute paths -/

/-- A path from the root through names only. -/
def Rooted (p : Path) : Prop := ∃ names : List Name, p = .root :: names.map .normal

/-- A stack over the root that holds names only. -/
def RootedStack (out : List Component) : Prop :=
  ∃ names : List Name, out = names.map .normal ++ [.root]

theorem RootedStack.step {out : List Component} {c : Component} (h : RootedStack out)
    (hc : c ≠ .root) : RootedStack (cleanStep out c) := by
  obtain ⟨names, rfl⟩ := h
  cases c with
  | root => exact absurd rfl hc
  | cur =>
      refine ⟨names, ?_⟩
      cases names <;> rfl
  | normal n =>
      refine ⟨n :: names, ?_⟩
      cases names <;> rfl
  | parent =>
      cases names with
      | nil => exact ⟨[], rfl⟩
      | cons n names => exact ⟨names, rfl⟩

theorem rootedStack_foldl {p : Path} {out : List Component} (h : RootedStack out)
    (hp : Component.root ∉ p) : RootedStack (p.foldl cleanStep out) := by
  induction p generalizing out with
  | nil => exact h
  | cons c p ih =>
      rw [List.mem_cons, not_or] at hp
      exact ih (h.step (Ne.symm hp.1)) hp.2

/-- A cleaned absolute path has neither `.` nor `..` in it. -/
theorem clean_absolute {p : Path} (hp : Component.root ∉ p) : Rooted (clean (.root :: p)) := by
  have h : RootedStack (p.foldl cleanStep [.root]) := rootedStack_foldl ⟨[], rfl⟩ hp
  obtain ⟨names, h⟩ := h
  refine ⟨names.reverse, ?_⟩
  unfold clean
  rw [List.foldl_cons, show cleanStep [] .root = [.root] from rfl, h]
  cases names <;> simp [ofStack]

theorem foldl_cleanStep_over_root (p : Path) (out : List Component) :
    ∃ out', p.foldl cleanStep (out ++ [.root]) = out' ++ [.root] := by
  induction p generalizing out with
  | nil => exact ⟨out, rfl⟩
  | cons c p ih =>
      have hstep : ∃ out', cleanStep (out ++ [.root]) c = out' ++ [.root] := by
        cases c with
        | root => exact ⟨.root :: out, by cases out <;> rfl⟩
        | cur => exact ⟨out, by cases out <;> rfl⟩
        | normal n => exact ⟨.normal n :: out, by cases out <;> rfl⟩
        | parent =>
            match out with
            | [] => exact ⟨[], rfl⟩
            | .root :: out => exact ⟨.root :: out, rfl⟩
            | .normal n :: out => exact ⟨out, rfl⟩
            | .cur :: out => exact ⟨.parent :: .cur :: out, rfl⟩
            | .parent :: out => exact ⟨.parent :: .parent :: out, rfl⟩
      obtain ⟨out', hout'⟩ := hstep
      rw [List.foldl_cons, hout']
      exact ih out'

/-- Cleaning keeps an absolute path absolute. -/
theorem isAbsolute_clean {p : Path} (h : isAbsolute p = true) : isAbsolute (clean p) = true := by
  cases p with
  | nil => cases h
  | cons c p =>
      have hc : c = .root := by simpa [isAbsolute] using h
      obtain ⟨out', hout'⟩ := foldl_cleanStep_over_root p []
      subst hc
      have hclean : clean (.root :: p) = ofStack (out' ++ [.root]) := congrArg ofStack hout'
      rw [hclean]
      cases out' with
      | nil => rfl
      | cons c out => simp [ofStack, isAbsolute]

theorem isAbsolute_join {base p : Path} (h : isAbsolute base = true) :
    isAbsolute (join base p) = true := by
  unfold join
  split
  · assumption
  · split
    · next hbase =>
        subst hbase
        cases h
    · cases base with
      | nil => cases h
      | cons c base => exact h

/-- An absolute path is not moved by the base it is joined to. -/
theorem join_absolute {base p : Path} (h : isAbsolute p = true) : join base p = p := if_pos h

/-! ### The text of an absolute path -/

theorem component_name (n : Name) : component n.text = some (.normal n) := by
  unfold component
  rw [if_neg n.isName.2.2.1, dif_pos n.isName]

theorem filterMap_component (names : List Name) :
    (names.map Name.text).filterMap component = names.map .normal := by
  induction names with
  | nil => rfl
  | cons n names ih =>
      rw [List.map_cons, List.filterMap_cons_some (component_name n), ih, List.map_cons]

theorem toText_rooted (n : Name) (names : List Name) :
    toText (.root :: (n :: names).map .normal) =
      ['/'].intercalate ([] :: (n :: names).map Name.text) := by
  unfold toText
  rw [if_neg (by simp), List.map_cons, List.map_map]
  rfl

/-- A path from the root is read back from its text. -/
theorem ofText_toText {p : Path} (hp : Rooted p) : ofText (toText p) = p := by
  obtain ⟨names, rfl⟩ := hp
  cases names with
  | nil => rfl
  | cons n names =>
      have hsplit : (toText (.root :: (n :: names).map .normal)).splitOn '/' =
          [] :: (n :: names).map Name.text := by
        rw [toText_rooted]
        apply List.splitOn_intercalate
        · intro l hl
          rcases List.mem_cons.mp hl with rfl | hl
          · exact List.not_mem_nil
          · obtain ⟨m, -, rfl⟩ := List.mem_map.mp hl
            exact m.isName.2.2.2
        · exact List.cons_ne_nil _ _
      have hhead : (toText (.root :: (n :: names).map .normal)).head? = some '/' := by
        rw [toText_rooted]
        rfl
      unfold ofText lead
      rw [hsplit, hhead, if_pos rfl, List.filterMap_cons_none rfl, filterMap_component]
      rfl

/-! ### Component lists that are read from a text -/

/-- A path with the root nowhere but at its head. -/
def Proper (p : Path) : Prop := Component.root ∉ p.tail

theorem component_ne_root (t : List Char) : component t ≠ some .root := by
  unfold component
  split
  · simp
  · split
    · simp
    · simp

theorem root_not_mem_components (ts : List (List Char)) :
    Component.root ∉ ts.filterMap component := by
  intro h
  obtain ⟨t, -, ht⟩ := List.mem_filterMap.mp h
  exact component_ne_root t ht

theorem proper_ofText (t : List Char) : Proper (ofText t) := by
  unfold Proper ofText lead
  intro h
  split at h
  · exact root_not_mem_components _ h
  · split at h
    · exact root_not_mem_components _ h
    · exact root_not_mem_components _ (List.mem_of_mem_tail h)

theorem Proper.not_mem {p : Path} (hp : Proper p) (hrel : isAbsolute p = false) :
    Component.root ∉ p := by
  cases p with
  | nil => exact List.not_mem_nil
  | cons c p =>
      rw [List.mem_cons, not_or]
      refine ⟨?_, hp⟩
      rintro rfl
      cases hrel

theorem Proper.join {base p : Path} (hbase : Proper base) (hp : Proper p) :
    Proper (join base p) := by
  unfold Paths.join
  split
  · exact hp
  · next hrel =>
      split
      · exact hp
      · cases base with
        | nil => contradiction
        | cons c base =>
            intro h
            rcases List.mem_append.mp h with h | h
            · exact hbase h
            · exact hp.not_mem (Bool.eq_false_iff.mpr hrel) (List.mem_of_mem_filter h)

theorem Proper.dropLast {p : Path} (hp : Proper p) : Proper p.dropLast := by
  unfold Proper
  rw [List.tail_dropLast]
  exact fun h => hp (List.dropLast_subset _ h)

/-- A proper path that is absolute cleans to one from the root through names. -/
theorem Proper.clean_rooted {p : Path} (hp : Proper p) (habsolute : isAbsolute p = true) :
    Rooted (clean p) := by
  cases p with
  | nil => cases habsolute
  | cons c p =>
      have hc : c = .root := by simpa [isAbsolute] using habsolute
      subst hc
      exact clean_absolute hp

theorem Rooted.proper {p : Path} (hp : Rooted p) : Proper p := by
  obtain ⟨names, rfl⟩ := hp
  unfold Proper
  simp

theorem Rooted.isAbsolute {p : Path} (hp : Rooted p) : isAbsolute p = true := by
  obtain ⟨names, rfl⟩ := hp
  rfl

/-- A path from the root through names is clean. -/
theorem Rooted.clean {p : Path} (hp : Rooted p) : clean p = p := by
  obtain ⟨names, rfl⟩ := hp
  have hfold : ∀ (names : List Name) (n : Component) (out : List Component),
      (names.map Component.normal).foldl cleanStep (n :: out) =
        (names.map Component.normal).reverse ++ n :: out := by
    intro names
    induction names with
    | nil => exact fun _ _ => rfl
    | cons m names ih =>
        intro n out
        rw [List.map_cons, List.foldl_cons, List.reverse_cons, List.append_assoc]
        cases n with
        | root => exact ih _ _
        | cur => exact ih _ _
        | parent => exact ih _ _
        | normal n => exact ih _ _
  unfold Paths.clean
  rw [List.foldl_cons, show cleanStep [] .root = [.root] from rfl, hfold names .root []]
  cases hnames : (names.map Component.normal).reverse with
  | nil =>
      rw [List.reverse_eq_nil_iff] at hnames
      rw [hnames]
      rfl
  | cons c out =>
      show (c :: out ++ [Component.root]).reverse = _
      rw [← hnames, List.reverse_append, List.reverse_reverse]
      rfl

/-- Names joined onto a path from the root. -/
theorem Rooted.join {p : Path} (hp : Rooted p) (n : Name) :
    Paths.join p [.normal n] = p ++ [.normal n] := by
  obtain ⟨names, rfl⟩ := hp
  rfl

theorem Rooted.append {p : Path} (hp : Rooted p) (n : Name) : Rooted (p ++ [.normal n]) := by
  obtain ⟨names, rfl⟩ := hp
  exact ⟨names ++ [n], by simp⟩

/-- A name is read as itself. -/
theorem ofText_name (n : Name) : ofText n.text = [.normal n] := by
  have hsplit : n.text.splitOn '/' = [n.text] := List.splitOn_eq_singleton n.isName.2.2.2
  have hhead : n.text.head? ≠ some '/' := fun h => n.isName.2.2.2 (List.mem_of_mem_head? h)
  unfold ofText lead
  rw [hsplit, if_neg hhead, List.head?_cons,
    if_neg (fun h => n.isName.2.1 (Option.some.inj h)), List.nil_append,
      List.filterMap_cons_some (component_name n)]
  rfl

end Paths
