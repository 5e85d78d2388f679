import Ratect.Paths

/-! # Relative paths

A cleaned relative path is `.`, or goes up some levels and then down by names (`Ascending`).  Its
text is read back as itself, and what stands before a separator of that text is the text of a
directory above it (`intercalate_eq_append`). -/

namespace Paths

/-- Up some levels, then down by names. -/
def Ascending (p : Path) : Prop :=
  ∃ (k : ℕ) (names : List Name), p = List.replicate k .parent ++ names.map .normal

/-- A stack that goes up some levels, then down by names. -/
def AscendingStack (out : List Component) : Prop :=
  ∃ (k : ℕ) (names : List Name), out = names.map .normal ++ List.replicate k .parent

theorem AscendingStack.step {out : List Component} (h : AscendingStack out) {c : Component}
    (hc : c ≠ .root) : AscendingStack (cleanStep out c) := by
  obtain ⟨k, names, rfl⟩ := h
  cases c with
  | root => contradiction
  | cur => exact ⟨k, names, by simp [cleanStep]⟩
  | normal n => exact ⟨k, n :: names, by simp [cleanStep]⟩
  | parent =>
      cases names with
      | nil =>
          refine ⟨k + 1, [], ?_⟩
          cases k <;> simp [cleanStep, List.replicate_succ]
      | cons n names => exact ⟨k, names, by simp [cleanStep]⟩

theorem ascendingStack_foldl {p : Path} (hp : Component.root ∉ p) {out : List Component}
    (h : AscendingStack out) : AscendingStack (p.foldl cleanStep out) := by
  induction p generalizing out with
  | nil => exact h
  | cons c p ih =>
      rw [List.mem_cons, not_or] at hp
      exact ih hp.2 (h.step (Ne.symm hp.1))

/-- A cleaned relative path. -/
theorem clean_relative {p : Path} (hp : Component.root ∉ p) :
    clean p = [.cur] ∨ clean p ≠ [] ∧ Ascending (clean p) := by
  have hstack : AscendingStack (p.foldl cleanStep []) := ascendingStack_foldl hp ⟨0, [], rfl⟩
  obtain ⟨k, names, h⟩ := hstack
  unfold clean
  rw [h]
  cases hout : names.map Component.normal ++ List.replicate k Component.parent with
  | nil => exact .inl rfl
  | cons c out =>
      refine .inr ⟨by simp [ofStack], k, names.reverse, ?_⟩
      rw [ofStack, ← hout, List.reverse_append, List.reverse_replicate, List.map_reverse]

theorem Ascending.dropLast {p : Path} (h : Ascending p) : Ascending p.dropLast := by
  obtain ⟨k, names, rfl⟩ := h
  rcases names.eq_nil_or_concat with rfl | ⟨names, n, rfl⟩
  · exact ⟨k - 1, [], by simp⟩
  · exact ⟨k, names, by simp [← List.append_assoc]⟩

/-- The components of such a path are read from their texts. -/
theorem Ascending.component {p : Path} (h : Ascending p) {c : Component} (hc : c ∈ p) :
    Paths.component c.toText = some c ∧ '/' ∉ c.toText ∧ c.toText ≠ [] ∧ c.toText ≠ ['.'] := by
  obtain ⟨k, names, rfl⟩ := h
  rcases List.mem_append.mp hc with hc | hc
  · rw [List.eq_of_mem_replicate hc]
    exact ⟨rfl, by decide, by decide, by decide⟩
  · obtain ⟨n, -, rfl⟩ := List.mem_map.mp hc
    exact ⟨component_name n, n.isName.2.2.2, n.isName.1, n.isName.2.1⟩

theorem Ascending.toText {p : Path} (h : Ascending p) :
    toText p = ['/'].intercalate (p.map Component.toText) := by
  unfold Paths.toText
  rw [if_neg]
  rintro rfl
  have := (h.component List.mem_cons_self).2.2.1
  exact this rfl

theorem Ascending.splitOn {p : Path} (h : Ascending p) (hne : p ≠ []) :
    (Paths.toText p).splitOn '/' = p.map Component.toText := by
  rw [h.toText]
  apply List.splitOn_intercalate
  · intro t ht
    obtain ⟨c, hc, rfl⟩ := List.mem_map.mp ht
    exact (h.component hc).2.1
  · simpa using hne

/-- The text of a relative path is that of its first component, and what follows it. -/
theorem Ascending.head {p : Path} (h : Ascending p) (hne : p ≠ []) :
    (Paths.toText p).head? ≠ some '/' := by
  cases p with
  | nil => contradiction
  | cons c p =>
      obtain ⟨-, hslash, htext, -⟩ := h.component (c := c) List.mem_cons_self
      rw [h.toText]
      have hhead : (['/'].intercalate ((c :: p).map Component.toText)).head? = c.toText.head? := by
        cases p with
        | nil => simp
        | cons d p =>
            rw [List.map_cons, List.map_cons, List.intercalate_cons_cons, List.append_assoc,
              List.head?_append_of_ne_nil _ htext]
      rw [hhead]
      exact fun hmem => hslash (List.mem_of_mem_head? hmem)

/-- A relative path is read back from its text. -/
theorem Ascending.ofText_toText {p : Path} (h : Ascending p) (hne : p ≠ []) :
    ofText (Paths.toText p) = p := by
  have hcomponents : (p.map Component.toText).filterMap Paths.component = p := by
    rw [List.filterMap_map]
    calc p.filterMap (Paths.component ∘ Component.toText)
        = p.filterMap some := List.filterMap_congr fun c hc => (h.component hc).1
      _ = p := List.filterMap_some
  have hlead : lead (Paths.toText p) = [] := by
    unfold lead
    rw [if_neg (h.head hne), h.splitOn hne, if_neg]
    cases p with
    | nil => contradiction
    | cons c p => exact fun hdot => (h.component List.mem_cons_self).2.2.2 (Option.some.inj hdot)
  unfold ofText
  rw [hlead, h.splitOn hne, hcomponents, List.nil_append]

theorem foldl_parents (j k : ℕ) :
    (List.replicate j Component.parent).foldl cleanStep (List.replicate k .parent) =
      List.replicate (j + k) .parent := by
  induction j generalizing k with
  | zero => simp
  | succ j ih =>
      have hstep : cleanStep (List.replicate k .parent) .parent =
          List.replicate (k + 1) Component.parent := by
        cases k <;> rfl
      rw [List.replicate_succ, List.foldl_cons, hstep, ih]
      congr 1
      omega

theorem foldl_names (names : List Name) (out : List Component) :
    (names.map Component.normal).foldl cleanStep out =
      (names.map Component.normal).reverse ++ out := by
  induction names generalizing out with
  | nil => rfl
  | cons n names ih =>
      rw [List.map_cons, List.foldl_cons, ih, List.reverse_cons, List.append_assoc]
      simp [cleanStep]

theorem Ascending.clean {p : Path} (h : Ascending p) (hne : p ≠ []) : clean p = p := by
  obtain ⟨k, names, rfl⟩ := h
  have hstack : (List.replicate k Component.parent ++ names.map Component.normal).foldl
      cleanStep [] =
      (List.replicate k Component.parent ++ names.map Component.normal).reverse := by
    have hup := foldl_parents k 0
    rw [List.foldl_append, List.reverse_append, List.reverse_replicate]
    rw [List.replicate_zero, Nat.add_zero] at hup
    rw [hup, foldl_names]
  unfold Paths.clean
  rw [hstack]
  cases hout : (List.replicate k Component.parent ++ names.map Component.normal).reverse with
  | nil => exact absurd (List.reverse_eq_nil_iff.mp hout) hne
  | cons c out => rw [ofStack, ← hout, List.reverse_reverse]

/-! ### What is above a path -/

theorem intercalate_take_drop {ts : List (List Char)} {i : ℕ} (hpos : 0 < i) (hlt : i < ts.length) :
    ['/'].intercalate ts = ['/'].intercalate (ts.take i) ++ '/' ::
      ['/'].intercalate (ts.drop i) := by
  induction ts generalizing i with
  | nil => cases hlt
  | cons t ts ih =>
      obtain ⟨i, rfl⟩ : ∃ j, i = j + 1 := ⟨i - 1, by omega⟩
      simp only [List.length_cons] at hlt
      have hne : ts ≠ [] := by
        rintro rfl
        simp at hlt
      rw [List.intercalate_cons_of_ne_nil hne, List.take_succ_cons, List.drop_succ_cons]
      cases i with
      | zero => simp
      | succ i =>
          have htake : ts.take (i + 1) ≠ [] := by simp [hne]
          have hrest := @ih (i + 1) (by omega) (by omega)
          rw [List.intercalate_cons_of_ne_nil htake, hrest]
          simp

/-- What stands before a separator of a joined text is a first part of it, joined. -/
theorem intercalate_eq_append {ts : List (List Char)} (h : ∀ t ∈ ts, '/' ∉ t)
    {dir rest : List Char} :
    ['/'].intercalate ts = dir ++ '/' :: rest ↔
      ∃ i, 0 < i ∧ i < ts.length ∧ dir = ['/'].intercalate (ts.take i) ∧
        rest = ['/'].intercalate (ts.drop i) := by
  constructor
  · intro heq
    induction ts generalizing dir with
    | nil => simp at heq
    | cons t ts ih =>
        have ht : '/' ∉ t := h t List.mem_cons_self
        cases ts with
        | nil =>
            rw [List.intercalate_singleton] at heq
            exact absurd (by simp [heq]) ht
        | cons u us =>
            rw [List.intercalate_cons_cons, List.append_assoc, List.singleton_append] at heq
            rcases List.append_eq_append_iff.mp heq with ⟨a, rfl, ha⟩ | ⟨c, rfl, hc⟩
            · cases a with
              | nil =>
                  obtain ⟨-, hrest⟩ := List.cons.inj ha
                  exact ⟨1, by omega, by simp, by simp, hrest.symm⟩
              | cons b a =>
                  obtain ⟨rfl, hrest⟩ := List.cons.inj ha
                  obtain ⟨i, hpos, hlt, rfl, hdrop⟩ := ih (fun t' ht' => h t' (.tail _ ht')) hrest
                  have htake : (u :: us).take i ≠ [] := by
                    obtain ⟨i, rfl⟩ : ∃ j, i = j + 1 := ⟨i - 1, by omega⟩
                    simp
                  refine ⟨i + 1, by omega, by simpa using hlt, ?_, hdrop⟩
                  rw [List.take_succ_cons, List.intercalate_cons_of_ne_nil htake, List.append_assoc]
                  rfl
            · cases c with
              | nil =>
                  obtain ⟨-, hrest⟩ := List.cons.inj hc
                  exact ⟨1, by omega, by simp, by simp, hrest⟩
              | cons b c =>
                  obtain ⟨rfl, -⟩ := List.cons.inj hc
                  exact absurd (by simp) ht
  · rintro ⟨i, hpos, hlt, rfl, rfl⟩
    exact intercalate_take_drop hpos hlt

theorem intercalate_concat (ts : List (List Char)) (t : List Char) :
    ∃ start, ['/'].intercalate (ts ++ [t]) = start ++ t := by
  induction ts with
  | nil => exact ⟨[], by simp⟩
  | cons u ts ih =>
      obtain ⟨start, hstart⟩ := ih
      refine ⟨u ++ ['/'] ++ start, ?_⟩
      rw [List.cons_append, List.intercalate_cons_of_ne_nil (by simp), hstart,
        List.append_assoc _ start]

/-- A path other than the root does not end with a separator. -/
theorem toText_getLast {p : Path} (hproper : Proper p) (hroot : p ≠ [.root]) :
    (toText p).getLast? ≠ some '/' := by
  rcases p.eq_nil_or_concat with rfl | ⟨q, c, rfl⟩
  · exact nofun
  · have hc : c ≠ .root := by
      rintro rfl
      cases q with
      | nil => exact hroot rfl
      | cons d q => exact hproper (by simp)
    have htext : c.toText ≠ [] ∧ '/' ∉ c.toText := by
      cases c with
      | root => contradiction
      | cur => exact ⟨by decide, by decide⟩
      | parent => exact ⟨by decide, by decide⟩
      | normal n => exact ⟨n.isName.1, n.isName.2.2.2⟩
    obtain ⟨start, hstart⟩ := intercalate_concat (q.map Component.toText) c.toText
    unfold Paths.toText
    rw [if_neg hroot, List.concat_eq_append, List.map_append, List.map_singleton, hstart,
      List.getLast?_append_of_ne_nil _ htext.1]
    exact fun h => htext.2 (List.mem_of_mem_getLast? h)

/-- Cleaning keeps the root at the head. -/
theorem Proper.clean {p : Path} (hp : Proper p) : Proper (clean p) := by
  cases habsolute : Paths.isAbsolute p with
  | true => exact (hp.clean_rooted habsolute).proper
  | false =>
      rcases clean_relative (hp.not_mem habsolute) with hcur | ⟨-, k, names, hclean⟩
      · rw [hcur]
        exact List.not_mem_nil
      · rw [hclean]
        intro hroot
        have := List.mem_of_mem_tail hroot
        simp at this

end Paths
