import Mathlib

/-! # Edit distance

An edit inserts, deletes or substitutes one symbol of a list.  `levenshtein` is defined by recursion
on the two heads; it is the least number of edits that turn one list into the other
(`levenshtein_isLeast`).  Since edits may be read from either end, so may the recursion
(`levenshtein_concat`), which is how a table of prefixes is filled. -/

namespace EditDistance

variable {α : Type}

/-! ### Edits -/

/-- One edit. -/
inductive Edit : List α → List α → Prop
  | insert (before : List α) (c : α) (after : List α) :
      Edit (before ++ after) (before ++ c :: after)
  | delete (before : List α) (c : α) (after : List α) :
      Edit (before ++ c :: after) (before ++ after)
  | substitute (before : List α) (c d : α) (after : List α) :
      Edit (before ++ c :: after) (before ++ d :: after)

/-- So many edits turn one list into the other. -/
inductive Edits : ℕ → List α → List α → Prop
  | none (a : List α) : Edits 0 a a
  | step {n : ℕ} {a b c : List α} : Edit a b → Edits n b c → Edits (n + 1) a c

theorem Edit.cons {a b : List α} (h : Edit a b) (x : α) : Edit (x :: a) (x :: b) := by
  cases h with
  | insert before c after => exact Edit.insert (x :: before) c after
  | delete before c after => exact Edit.delete (x :: before) c after
  | substitute before c d after => exact Edit.substitute (x :: before) c d after

theorem Edits.cons {n : ℕ} {a b : List α} (h : Edits n a b) (x : α) :
    Edits n (x :: a) (x :: b) := by
  induction h with
  | none a => exact Edits.none (x :: a)
  | step hedit _ ih => exact Edits.step (hedit.cons x) ih

theorem Edit.reverse {a b : List α} (h : Edit a b) : Edit a.reverse b.reverse := by
  cases h with
  | insert before c after =>
      rw [List.reverse_append, List.reverse_append, List.reverse_cons, List.append_assoc]
      exact Edit.insert after.reverse c before.reverse
  | delete before c after =>
      rw [List.reverse_append, List.reverse_append, List.reverse_cons, List.append_assoc]
      exact Edit.delete after.reverse c before.reverse
  | substitute before c d after =>
      rw [List.reverse_append, List.reverse_append, List.reverse_cons,
        List.reverse_cons, List.append_assoc, List.append_assoc]
      exact Edit.substitute after.reverse c d before.reverse

theorem Edits.reverse {n : ℕ} {a b : List α} (h : Edits n a b) : Edits n a.reverse b.reverse := by
  induction h with
  | none a => exact Edits.none a.reverse
  | step hedit _ ih => exact Edits.step hedit.reverse ih

/-- A list is built, or taken apart, symbol by symbol. -/
theorem edits_from_nil (b : List α) : Edits b.length [] b := by
  induction b with
  | nil => exact Edits.none []
  | cons y b ih => exact Edits.step (Edit.insert [] y []) (ih.cons y)

theorem edits_to_nil (a : List α) : Edits a.length a [] := by
  induction a with
  | nil => exact Edits.none []
  | cons x a ih => exact Edits.step (Edit.delete [] x a) ih

/-! ### The recursion -/

variable [DecidableEq α]

/-- The recursive definition: heads that agree cost nothing; of heads that differ, one is
substituted, deleted or inserted. -/
def levenshtein : List α → List α → ℕ
  | [], b => b.length
  | a, [] => a.length
  | x :: a, y :: b =>
      if x = y then levenshtein a b
      else 1 + min (min (levenshtein a b) (levenshtein a (y :: b))) (levenshtein (x :: a) b)
termination_by a b => a.length + b.length

theorem levenshtein_nil_left (b : List α) : levenshtein [] b = b.length := by rw [levenshtein]

theorem levenshtein_nil_right (a : List α) : levenshtein a [] = a.length := by
  cases a with
  | nil => rw [levenshtein]
  | cons x a => simp [levenshtein]

theorem levenshtein_cons_self (x : α) (a b : List α) :
    levenshtein (x :: a) (x :: b) = levenshtein a b := by
  rw [levenshtein, if_pos rfl]

theorem levenshtein_cons_ne {x y : α} (h : x ≠ y) (a b : List α) : levenshtein (x :: a) (y :: b) =
    1 + min (min (levenshtein a b) (levenshtein a (y :: b))) (levenshtein (x :: a) b) := by
  rw [levenshtein, if_neg h]

theorem levenshtein_self (a : List α) : levenshtein a a = 0 := by
  induction a with
  | nil => exact levenshtein_nil_left []
  | cons x a ih => rw [levenshtein_cons_self, ih]

theorem levenshtein_comm (a b : List α) : levenshtein a b = levenshtein b a := by
  induction a generalizing b with
  | nil => rw [levenshtein_nil_left, levenshtein_nil_right]
  | cons x a iha =>
      induction b with
      | nil => rw [levenshtein_nil_left, levenshtein_nil_right]
      | cons y b ihb =>
          by_cases h : x = y
          · rw [h, levenshtein_cons_self, levenshtein_cons_self, iha]
          · rw [levenshtein_cons_ne h, levenshtein_cons_ne (Ne.symm h), iha b, iha (y :: b), ihb]
            omega

/-! ### One symbol more -/

/-- A symbol in front changes the distance by one at most. -/
theorem levenshtein_cons_near (x : α) (a b : List α) :
    levenshtein (x :: a) b ≤ levenshtein a b + 1 ∧
      levenshtein a b ≤ levenshtein (x :: a) b + 1 := by
  induction hn : a.length + b.length using Nat.strong_induction_on generalizing x a b with
  | h n ih =>
      cases b with
      | nil =>
          rw [levenshtein_nil_right, levenshtein_nil_right, List.length_cons]
          omega
      | cons y b =>
          rw [List.length_cons] at hn
          -- the same for a symbol in front of the other list
          have hright := ih (b.length + a.length) (by omega) y b a rfl
          rw [levenshtein_comm _ a, levenshtein_comm b a] at hright
          have hleft := ih (a.length + b.length) (by omega) x a b rfl
          by_cases h : x = y
          · rw [h, levenshtein_cons_self]
            omega
          · rw [levenshtein_cons_ne h]
            omega

theorem levenshtein_cons_right_near (y : α) (a b : List α) :
    levenshtein a (y :: b) ≤ levenshtein a b + 1 ∧
      levenshtein a b ≤ levenshtein a (y :: b) + 1 := by
  rw [levenshtein_comm a, levenshtein_comm a]
  exact levenshtein_cons_near y b a

/-- Each of the three ways is one that could be taken. -/
theorem levenshtein_cons_cons_le (x y : α) (a b : List α) :
    levenshtein (x :: a) (y :: b) ≤ 1 + levenshtein a b ∧
      levenshtein (x :: a) (y :: b) ≤ 1 + levenshtein a (y :: b) ∧
        levenshtein (x :: a) (y :: b) ≤ 1 + levenshtein (x :: a) b := by
  have hleft := (levenshtein_cons_near x a (y :: b)).1
  have hright := (levenshtein_cons_right_near y (x :: a) b).1
  refine ⟨?_, by omega, by omega⟩
  by_cases h : x = y
  · rw [h, levenshtein_cons_self]
    omega
  · rw [levenshtein_cons_ne h]
    omega

/-- What is near every list stays so behind a symbol. -/
theorem near_cons {a a' : List α} (h : ∀ b, levenshtein a b ≤ levenshtein a' b + 1) (x : α)
    (b : List α) : levenshtein (x :: a) b ≤ levenshtein (x :: a') b + 1 := by
  induction b with
  | nil =>
      have hlength := h []
      rw [levenshtein_nil_right, levenshtein_nil_right] at hlength
      rw [levenshtein_nil_right, levenshtein_nil_right, List.length_cons, List.length_cons]
      omega
  | cons y b ih =>
      by_cases hxy : x = y
      · rw [hxy, levenshtein_cons_self, levenshtein_cons_self]
        exact h b
      · have hboth := h b
        have hdelete := h (y :: b)
        rw [levenshtein_cons_ne hxy, levenshtein_cons_ne hxy]
        omega

theorem near_append {a a' : List α} (h : ∀ b, levenshtein a b ≤ levenshtein a' b + 1)
    (before b : List α) : levenshtein (before ++ a) b ≤ levenshtein (before ++ a') b + 1 := by
  induction before generalizing b with
  | nil => exact h b
  | cons x before ih => exact near_cons ih x b

theorem near_substitute (c d : α) (after b : List α) :
    levenshtein (c :: after) b ≤ levenshtein (d :: after) b + 1 := by
  induction b with
  | nil =>
      rw [levenshtein_nil_right, levenshtein_nil_right, List.length_cons, List.length_cons]
      omega
  | cons y b ih =>
      obtain ⟨hboth, hdelete, hinsert⟩ := levenshtein_cons_cons_le c y after b
      by_cases hd : d = y
      · rw [hd, levenshtein_cons_self]
        omega
      · rw [levenshtein_cons_ne hd]
        omega

/-- An edit takes off one at most. -/
theorem Edit.near {a a' : List α} (h : Edit a a') (b : List α) :
    levenshtein a b ≤ levenshtein a' b + 1 := by
  cases h with
  | insert before c after =>
      exact near_append (fun b => (levenshtein_cons_near c after b).2) before b
  | delete before c after =>
      exact near_append (fun b => (levenshtein_cons_near c after b).1) before b
  | substitute before c d after => exact near_append (near_substitute c d after) before b

/-! ### The least number of edits -/

theorem Edits.levenshtein_le {n : ℕ} {a b : List α} (h : Edits n a b) : levenshtein a b ≤ n := by
  induction h with
  | none a => rw [levenshtein_self]
  | step hedit _ ih => exact (hedit.near _).trans (Nat.add_le_add_right ih 1)

theorem edits_levenshtein (a b : List α) : Edits (levenshtein a b) a b := by
  induction a generalizing b with
  | nil =>
      rw [levenshtein_nil_left]
      exact edits_from_nil b
  | cons x a iha =>
      induction b with
      | nil =>
          rw [levenshtein_nil_right]
          exact edits_to_nil (x :: a)
      | cons y b ihb =>
          by_cases h : x = y
          · rw [h, levenshtein_cons_self]
            exact (iha b).cons y
          · rw [levenshtein_cons_ne h, add_comm]
            rcases min_choice (min (levenshtein a b) (levenshtein a (y :: b)))
              (levenshtein (x :: a) b) with hmin | hmin
            · rw [hmin]
              rcases min_choice (levenshtein a b) (levenshtein a (y :: b)) with hleft | hleft
              · rw [hleft]
                exact Edits.step (Edit.substitute [] x y a) ((iha b).cons y)
              · rw [hleft]
                exact Edits.step (Edit.delete [] x a) (iha (y :: b))
            · rw [hmin]
              exact Edits.step (Edit.insert [] y (x :: a)) (ihb.cons y)

/-- The distance is the least number of edits that turn one list into the other. -/
theorem levenshtein_isLeast (a b : List α) : IsLeast {n | Edits n a b} (levenshtein a b) :=
  ⟨edits_levenshtein a b, fun _ h => h.levenshtein_le⟩

/-! ### Read from the end -/

theorem levenshtein_reverse (a b : List α) : levenshtein a.reverse b.reverse = levenshtein a b := by
  apply le_antisymm
  · exact (edits_levenshtein a b).reverse.levenshtein_le
  · have hback := (edits_levenshtein a.reverse b.reverse).reverse
    rw [List.reverse_reverse, List.reverse_reverse] at hback
    exact hback.levenshtein_le

/-- The recursion on the two last symbols. -/
theorem levenshtein_concat (a b : List α) (x y : α) : levenshtein (a ++ [x]) (b ++ [y]) =
    if x = y then levenshtein a b
    else 1 + min (min (levenshtein a b) (levenshtein a (b ++ [y]))) (levenshtein (a ++ [x]) b) := by
  have hreverse : ∀ a b : List α, levenshtein a b = levenshtein a.reverse b.reverse :=
    fun a b => (levenshtein_reverse a b).symm
  rw [hreverse (a ++ [x]), hreverse a b, hreverse a (b ++ [y]), hreverse (a ++ [x]) b,
    List.reverse_concat, List.reverse_concat]
  split_ifs with h
  · rw [h, levenshtein_cons_self]
  · rw [levenshtein_cons_ne h]

end EditDistance
