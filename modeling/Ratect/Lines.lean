import Ratect.Strings

/-! # Lines

`str::lines`, and what it makes of a text whose lines are known.  A carriage return before a line
break belongs to the break, so a line that was begun stays in front of what follows
(`start_isPrefix`). -/

namespace Ratect

/-- `str::lines`, after the start of a line. -/
def linesFrom : Text → Text → List Text
  | line, [] => if line = [] then [] else [line]
  | line, c :: rest =>
      if c = '\n' then (stripLast '\r' line).getD line :: linesFrom [] rest
      else linesFrom (line ++ [c]) rest

/-- `str::lines`. -/
def lines (t : Text) : List Text := linesFrom [] t

theorem stripLast_of_not_mem {c : Char} {t : Text} (h : c ∉ t) : stripLast c t = none := by
  rw [stripLast, if_neg]
  exact fun hlast => h (List.mem_of_getLast? hlast)

theorem stripLast_isPrefix (c : Char) (t : Text) : (stripLast c t).getD t <+: t := by
  cases h : stripLast c t with
  | none => exact List.prefix_refl t
  | some rest =>
      rw [stripLast_eq_some.mp h]
      exact List.prefix_append rest [c]

/-- What begins a line stays, and is read up to the next break. -/
theorem linesFrom_append {t : Text} (hn : '\n' ∉ t) (start rest : Text) :
    linesFrom start (t ++ rest) = linesFrom (start ++ t) rest := by
  induction t generalizing start with
  | nil => rw [List.nil_append, List.append_nil]
  | cons c t ih =>
      have hc : c ≠ '\n' := fun h => hn (h ▸ List.mem_cons_self ..)
      have ht : '\n' ∉ t := fun h => hn (List.mem_cons_of_mem _ h)
      rw [List.cons_append, linesFrom, if_neg hc, ih ht]
      simp only [List.append_assoc, List.singleton_append]

theorem linesFrom_line {line : Text} (hn : '\n' ∉ line) (start rest : Text) :
    linesFrom start (line ++ '\n' :: rest) =
      (stripLast '\r' (start ++ line)).getD (start ++ line) :: linesFrom [] rest := by
  rw [linesFrom_append hn, linesFrom, if_pos rfl]

/-- The lines before a break, and those after it. -/
theorem linesFrom_break (t rest start : Text) :
    linesFrom start (t ++ '\n' :: rest) = linesFrom start (t ++ ['\n']) ++ linesFrom [] rest := by
  induction t generalizing start with
  | nil => simp [linesFrom]
  | cons c t ih =>
      simp only [List.cons_append, linesFrom]
      split_ifs
      · rw [ih, List.cons_append]
      · exact ih _

/-- A text of whole lines, none with a carriage return, is read as those lines. -/
theorem lines_flatMap {ls : List Text} (h : ∀ line ∈ ls, '\n' ∉ line ∧ '\r' ∉ line) :
    lines (ls.flatMap (· ++ ['\n'])) = ls := by
  induction ls with
  | nil => rfl
  | cons line ls ih =>
      have hline := h line (List.mem_cons_self ..)
      have hrest := ih fun other hmem => h other (List.mem_cons_of_mem _ hmem)
      unfold lines at hrest ⊢
      rw [List.flatMap_cons, List.append_assoc, List.singleton_append, linesFrom_line hline.1,
        hrest, List.nil_append, stripLast_of_not_mem hline.2]
      rfl

/-- The first line that a break ends begins with what was begun, unless the break comes at once. -/
theorem start_isPrefix {t : Text} (hne : t ≠ []) (hbreak : t.head? ≠ some '\n') (start : Text) :
    ∃ first others,
      linesFrom start (t ++ ['\n']) = first :: others ∧ start <+: first ∧ first <+: start ++ t := by
  induction t generalizing start with
  | nil => exact absurd rfl hne
  | cons c t ih =>
      have hc : c ≠ '\n' := fun h => hbreak (by rw [h]; rfl)
      rw [List.cons_append, linesFrom, if_neg hc]
      by_cases hend : t = [] ∨ t.head? = some '\n'
      · obtain ⟨rest, hrest⟩ : ∃ rest, t ++ ['\n'] = '\n' :: rest := by
          rcases hend with rfl | hhead
          · exact ⟨[], rfl⟩
          · obtain ⟨rest, rfl⟩ := List.head?_eq_some_iff.mp hhead
            exact ⟨rest ++ ['\n'], rfl⟩
        rw [hrest, linesFrom, if_pos rfl]
        refine ⟨_, _, rfl, ?_, ?_⟩
        · cases h : stripLast '\r' (start ++ [c]) with
          | none => exact List.prefix_append start [c]
          | some line =>
              obtain ⟨rfl, -⟩ := List.append_inj' (stripLast_eq_some.mp h) rfl
              exact List.prefix_refl _
        · refine (stripLast_isPrefix _ _).trans ?_
          rw [List.append_cons start c t]
          exact List.prefix_append _ _
      · push Not at hend
        obtain ⟨first, others, hlines, hstart, hfirst⟩ := ih hend.1 hend.2 (start ++ [c])
        refine ⟨first, others, hlines, (List.prefix_append _ _).trans hstart, ?_⟩
        rw [List.append_assoc, List.singleton_append] at hfirst
        exact hfirst

end Ratect
