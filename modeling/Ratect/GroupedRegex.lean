import Mathlib

/-! # Regular expressions with groups

Expressions over classes of characters with alternatives, repetition and numbered groups, matched
against a whole text.  `parses` is the backtracking search, first choices first; `Reads` says what
an expression matches and what its groups take; `captures` is the first match of the whole text
(`captures_eq_some`, `captures_isSome`), and an alternative before another wins where it can
(`captures_cat_alt`). -/

/-- An expression. -/
inductive GroupedRegex where
  | empty
  | one (accepts : Char → Bool)
  | cat (a b : GroupedRegex)
  | alt (a b : GroupedRegex)
  | star (a : GroupedRegex)
  | group (n : ℕ) (a : GroupedRegex)

namespace GroupedRegex

/-! ### Derived forms -/

/-- A single character. -/
def char (c : Char) : GroupedRegex := .one fun d => d = c

/-- `a?`. -/
def opt (a : GroupedRegex) : GroupedRegex := .alt a .empty

/-- `a+`. -/
def plus (a : GroupedRegex) : GroupedRegex := .cat a (.star a)

/-- `a{n}`. -/
def times (a : GroupedRegex) : ℕ → GroupedRegex
  | 0 => .empty
  | n + 1 => .cat a (times a n)

/-- `a{0,n}`. -/
def upTo (a : GroupedRegex) : ℕ → GroupedRegex
  | 0 => .empty
  | n + 1 => .opt (.cat a (upTo a n))

/-- `a{n,}`. -/
def atLeast (a : GroupedRegex) (n : ℕ) : GroupedRegex := .cat (a.times n) (.star a)

/-! ### Matching -/

/-- What each group took. -/
abbrev Groups := List (ℕ × List Char)

/-- The matches of as many repetitions as there are first, each of which takes something. -/
def starParses (next : List Char → List (Groups × List Char)) :
    ℕ → List Char → List (Groups × List Char)
  | 0, text => [([], text)]
  | fuel + 1, text =>
      ((next text).flatMap fun first =>
        if first.2.length < text.length then
          (starParses next fuel first.2).map fun more => (first.1 ++ more.1, more.2)
        else []) ++ [([], text)]

/-- Every match at the beginning of the text with what is left after it, first choices first. -/
def parses : GroupedRegex → List Char → List (Groups × List Char)
  | .empty, text => [([], text)]
  | .one accepts, c :: text => if accepts c then [([], text)] else []
  | .one _, [] => []
  | .cat a b, text =>
      (a.parses text).flatMap fun first => (b.parses first.2).map fun second =>
        (first.1 ++ second.1, second.2)
  | .alt a b, text => a.parses text ++ b.parses text
  | .star a, text => starParses a.parses text.length text
  | .group n a, text =>
      (a.parses text).map fun inner =>
        ((n, text.take (text.length - inner.2.length)) :: inner.1, inner.2)

/-- `captures` of `^e$`: what the groups take in the first match of the whole text. -/
def captures (e : GroupedRegex) (text : List Char) : Option Groups :=
  ((e.parses text).find? fun parse => parse.2.isEmpty).map Prod.fst

/-- `is_match` of `^e$`. -/
def isMatch (e : GroupedRegex) (text : List Char) : Bool := (e.captures text).isSome

/-! ### What an expression matches -/

/-- `e` matches the text and its groups take `groups`. -/
inductive Reads : GroupedRegex → Groups → List Char → Prop
  | empty : Reads .empty [] []
  | one {accepts : Char → Bool} {c : Char} : accepts c = true → Reads (.one accepts) [] [c]
  | cat {a b : GroupedRegex} {g h : Groups} {v w : List Char} :
      Reads a g v → Reads b h w → Reads (.cat a b) (g ++ h) (v ++ w)
  | left {a b : GroupedRegex} {g : Groups} {w : List Char} : Reads a g w → Reads (.alt a b) g w
  | right {a b : GroupedRegex} {g : Groups} {w : List Char} : Reads b g w → Reads (.alt a b) g w
  | starNil {a : GroupedRegex} : Reads (.star a) [] []
  | starCons {a : GroupedRegex} {g h : Groups} {v w : List Char} :
      v ≠ [] → Reads a g v → Reads (.star a) h w → Reads (.star a) (g ++ h) (v ++ w)
  | group {n : ℕ} {a : GroupedRegex} {g : Groups} {w : List Char} :
      Reads a g w → Reads (.group n a) ((n, w) :: g) w

theorem reads_empty {g : Groups} {w : List Char} : Reads .empty g w ↔ g = [] ∧ w = [] := by
  constructor
  · intro h
    cases h
    exact ⟨rfl, rfl⟩
  · rintro ⟨rfl, rfl⟩
    exact .empty

theorem reads_one {accepts : Char → Bool} {g : Groups} {w : List Char} :
    Reads (.one accepts) g w ↔ g = [] ∧ ∃ c, w = [c] ∧ accepts c = true := by
  constructor
  · intro h
    cases h with
    | one hc => exact ⟨rfl, _, rfl, hc⟩
  · rintro ⟨rfl, c, rfl, hc⟩
    exact .one hc

theorem reads_char {c : Char} {g : Groups} {w : List Char} :
    Reads (char c) g w ↔ g = [] ∧ w = [c] := by
  unfold char
  rw [reads_one]
  simp only [decide_eq_true_eq, exists_eq_right]

theorem reads_cat {a b : GroupedRegex} {g : Groups} {w : List Char} :
    Reads (.cat a b) g w ↔
      ∃ g₁ g₂ w₁ w₂, g = g₁ ++ g₂ ∧ w = w₁ ++ w₂ ∧ Reads a g₁ w₁ ∧ Reads b g₂ w₂ := by
  constructor
  · intro h
    cases h with
    | cat ha hb => exact ⟨_, _, _, _, rfl, rfl, ha, hb⟩
  · rintro ⟨_, _, _, _, rfl, rfl, ha, hb⟩
    exact .cat ha hb

/-- The same where no group takes anything. -/
theorem reads_cat_nil {a b : GroupedRegex} {w : List Char} :
    Reads (.cat a b) [] w ↔ ∃ u v, w = u ++ v ∧ Reads a [] u ∧ Reads b [] v := by
  rw [reads_cat]
  constructor
  · rintro ⟨g₁, g₂, u, v, hg, hw, ha, hb⟩
    obtain ⟨rfl, rfl⟩ := List.append_eq_nil_iff.mp hg.symm
    exact ⟨u, v, hw, ha, hb⟩
  · rintro ⟨u, v, hw, ha, hb⟩
    exact ⟨[], [], u, v, rfl, hw, ha, hb⟩

theorem reads_alt {a b : GroupedRegex} {g : Groups} {w : List Char} :
    Reads (.alt a b) g w ↔ Reads a g w ∨ Reads b g w := by
  constructor
  · intro h
    cases h with
    | left h => exact Or.inl h
    | right h => exact Or.inr h
  · rintro (h | h)
    · exact .left h
    · exact .right h

theorem reads_opt {a : GroupedRegex} {g : Groups} {w : List Char} :
    Reads (opt a) g w ↔ Reads a g w ∨ g = [] ∧ w = [] := by
  unfold opt
  rw [reads_alt, reads_empty]

theorem reads_group {n : ℕ} {a : GroupedRegex} {g : Groups} {w : List Char} :
    Reads (.group n a) g w ↔ ∃ inner, g = (n, w) :: inner ∧ Reads a inner w := by
  constructor
  · intro h
    cases h with
    | group h => exact ⟨_, rfl, h⟩
  · rintro ⟨inner, rfl, h⟩
    exact .group h

/-- What holds of no repetition and is kept by one more holds of all of them. -/
theorem Reads.star_induction {a : GroupedRegex} {P : List Char → Prop} (hnil : P [])
    (hcons : ∀ {g v w}, Reads a g v → P w → P (v ++ w)) {g : Groups} {w : List Char}
    (h : Reads (.star a) g w) : P w := by
  generalize hstar : GroupedRegex.star a = e at h
  induction h with
  | starNil => exact hnil
  | starCons _ hv _ _ ih =>
      obtain rfl := GroupedRegex.star.inj hstar
      exact hcons hv (ih rfl)
  | _ => cases hstar

/-! ### The search is exact -/

/-- What `next` finds is what `e` reads. -/
def ParsesExact (e : GroupedRegex) (next : List Char → List (Groups × List Char)) : Prop :=
  ∀ text g rest, (g, rest) ∈ next text ↔ ∃ w, text = w ++ rest ∧ Reads e g w

theorem mem_starParses {a : GroupedRegex} {next : List Char → List (Groups × List Char)}
    (h : ParsesExact a next) {fuel : ℕ} {text : List Char} {g : Groups} {rest : List Char}
    (hfuel : text.length ≤ fuel) :
    (g, rest) ∈ starParses next fuel text ↔ ∃ w, text = w ++ rest ∧ Reads (.star a) g w := by
  constructor
  · intro hmem
    clear hfuel
    induction fuel generalizing text g rest with
    | zero =>
        rw [starParses, List.mem_singleton] at hmem
        obtain ⟨rfl, rfl⟩ := Prod.mk.inj hmem
        exact ⟨[], rfl, .starNil⟩
    | succ fuel ih =>
        rw [starParses, List.mem_append, List.mem_singleton, List.mem_flatMap] at hmem
        rcases hmem with ⟨first, hfirst, hmem⟩ | hmem
        · split_ifs at hmem with hlt
          · obtain ⟨more, hmore, heq⟩ := List.mem_map.mp hmem
            obtain ⟨rfl, rfl⟩ := Prod.mk.inj heq
            obtain ⟨v, htext, hv⟩ := (h text first.1 first.2).mp hfirst
            obtain ⟨w, hrest, hw⟩ := ih hmore
            have hne : v ≠ [] := by
              rintro rfl
              rw [htext] at hlt
              exact absurd hlt (by simp)
            exact ⟨v ++ w, by rw [htext, hrest, List.append_assoc], .starCons hne hv hw⟩
          · cases hmem
        · obtain ⟨rfl, rfl⟩ := Prod.mk.inj hmem
          exact ⟨[], rfl, .starNil⟩
  · rintro ⟨w, rfl, hreads⟩
    generalize hstar : GroupedRegex.star a = e at hreads
    induction hreads generalizing fuel with
    | starNil => cases fuel <;> simp [starParses]
    | @starCons a' g h' v w hne hv hw _ ih =>
        obtain rfl := GroupedRegex.star.inj hstar
        have hpos := List.length_pos_iff.mpr hne
        simp only [List.length_append] at hfuel
        obtain ⟨fuel, rfl⟩ : ∃ n, fuel = n + 1 := ⟨fuel - 1, by omega⟩
        rw [starParses, List.mem_append, List.mem_flatMap]
        refine Or.inl ⟨(g, w ++ rest), (h _ _ _).mpr ⟨v, by rw [List.append_assoc], hv⟩, ?_⟩
        rw [if_pos (by simp only [List.length_append]; omega)]
        exact List.mem_map.mpr ⟨(h', rest), ih (by simp only [List.length_append]; omega) rfl, rfl⟩
    | _ => cases hstar

theorem mem_parses (e : GroupedRegex) : ParsesExact e e.parses := by
  induction e with
  | empty =>
      intro text g rest
      rw [parses, List.mem_singleton, Prod.mk.injEq]
      constructor
      · rintro ⟨rfl, rfl⟩
        exact ⟨[], rfl, .empty⟩
      · rintro ⟨w, rfl, hw⟩
        obtain ⟨rfl, rfl⟩ := reads_empty.mp hw
        exact ⟨rfl, rfl⟩
  | one accepts =>
      intro text g rest
      constructor
      · intro hmem
        cases text with
        | nil => cases hmem
        | cons c text =>
            rw [parses] at hmem
            split_ifs at hmem with hc
            · obtain ⟨rfl, rfl⟩ := Prod.mk.inj (List.mem_singleton.mp hmem)
              exact ⟨[c], rfl, .one hc⟩
            · cases hmem
      · rintro ⟨w, rfl, hw⟩
        obtain ⟨rfl, c, rfl, hc⟩ := reads_one.mp hw
        rw [List.singleton_append, parses, if_pos hc]
        exact List.mem_singleton_self _
  | cat a b iha ihb =>
      intro text g rest
      rw [parses, List.mem_flatMap]
      constructor
      · rintro ⟨first, hfirst, hmem⟩
        obtain ⟨second, hsecond, heq⟩ := List.mem_map.mp hmem
        obtain ⟨rfl, rfl⟩ := Prod.mk.inj heq
        obtain ⟨v, rfl, hv⟩ := (iha _ _ _).mp hfirst
        obtain ⟨w, hw, hreads⟩ := (ihb _ _ _).mp hsecond
        exact ⟨v ++ w, by rw [hw, List.append_assoc], .cat hv hreads⟩
      · rintro ⟨w, rfl, hw⟩
        obtain ⟨g₁, g₂, w₁, w₂, rfl, rfl, ha, hb⟩ := reads_cat.mp hw
        refine ⟨(g₁, w₂ ++ rest), (iha _ _ _).mpr ⟨w₁, by rw [List.append_assoc], ha⟩, ?_⟩
        exact List.mem_map.mpr ⟨(g₂, rest), (ihb _ _ _).mpr ⟨w₂, rfl, hb⟩, rfl⟩
  | alt a b iha ihb =>
      intro text g rest
      rw [parses, List.mem_append, iha, ihb]
      simp only [reads_alt, and_or_left, exists_or]
  | star a ih =>
      intro text g rest
      exact mem_starParses ih le_rfl
  | group n a ih =>
      intro text g rest
      rw [parses, List.mem_map]
      constructor
      · rintro ⟨inner, hinner, heq⟩
        obtain ⟨rfl, rfl⟩ := Prod.mk.inj heq
        obtain ⟨w, rfl, hw⟩ := (ih _ _ _).mp hinner
        refine ⟨w, rfl, ?_⟩
        rw [List.length_append, Nat.add_sub_cancel, List.take_left' rfl]
        exact .group hw
      · rintro ⟨w, rfl, hgroup⟩
        obtain ⟨inner, rfl, hw⟩ := reads_group.mp hgroup
        refine ⟨(inner, rest), (ih _ _ _).mpr ⟨w, rfl, hw⟩, ?_⟩
        rw [List.length_append, Nat.add_sub_cancel, List.take_left' rfl]

/-- What the groups take comes from a match of the whole text. -/
theorem captures_eq_some {e : GroupedRegex} {text : List Char} {g : Groups}
    (h : e.captures text = some g) : Reads e g text := by
  unfold captures at h
  obtain ⟨parse, hfind, rfl⟩ := Option.map_eq_some_iff.mp h
  have hmem := List.mem_of_find?_eq_some hfind
  have hempty : parse.2.isEmpty = true := List.find?_some (p := fun parse : Groups × List Char =>
      parse.2.isEmpty) hfind
  have hrest : parse.2 = [] := List.isEmpty_iff.mp hempty
  obtain ⟨w, htext, hw⟩ := (mem_parses e _ parse.1 parse.2).mp hmem
  rwa [htext, hrest, List.append_nil]

theorem captures_isSome {e : GroupedRegex} {text : List Char} :
    (e.captures text).isSome = true ↔ ∃ g, Reads e g text := by
  constructor
  · intro h
    obtain ⟨g, hg⟩ := Option.isSome_iff_exists.mp h
    exact ⟨g, captures_eq_some hg⟩
  · rintro ⟨g, hg⟩
    unfold captures
    rw [Option.isSome_map, List.find?_isSome]
    exact ⟨(g, []), (mem_parses e _ _ _).mpr ⟨text, (List.append_nil text).symm, hg⟩, rfl⟩

/-- The second alternative is taken only where the first has no match. -/
theorem captures_cat_alt {a b c : GroupedRegex} {text : List Char} :
    (cat (alt a b) c).captures text = ((cat a c).captures text).or ((cat b c).captures text) := by
  unfold captures
  simp only [parses, List.flatMap_append, List.find?_append, Option.map_or]

/-! ### The characters of a match -/

/-- A class of `e` has the character. -/
def mentions : GroupedRegex → Char → Bool
  | .empty, _ => false
  | .one accepts, c => accepts c
  | .cat a b, c => a.mentions c || b.mentions c
  | .alt a b, c => a.mentions c || b.mentions c
  | .star a, c => a.mentions c
  | .group _ a, c => a.mentions c

theorem Reads.mentions {e : GroupedRegex} {g : Groups} {w : List Char} (h : Reads e g w) :
    ∀ c ∈ w, e.mentions c = true := by
  induction h with
  | empty => exact fun _ hc => absurd hc List.not_mem_nil
  | one hc =>
      intro d hd
      rw [List.mem_singleton.mp hd]
      exact hc
  | cat _ _ iha ihb =>
      intro c hc
      rw [GroupedRegex.mentions, Bool.or_eq_true]
      exact (List.mem_append.mp hc).imp (iha c) (ihb c)
  | left _ ih =>
      intro c hc
      rw [GroupedRegex.mentions, ih c hc, Bool.true_or]
  | right _ ih =>
      intro c hc
      rw [GroupedRegex.mentions, ih c hc, Bool.or_true]
  | starNil => exact fun _ hc => absurd hc List.not_mem_nil
  | starCons _ _ _ iha ihb =>
      intro c hc
      exact (List.mem_append.mp hc).elim (iha c) (ihb c)
  | group _ ih => exact ih

theorem Reads.not_mem {e : GroupedRegex} {g : Groups} {w : List Char} (h : Reads e g w) {c : Char}
    (hc : e.mentions c = false) : c ∉ w := by
  intro hmem
  rw [h.mentions c hmem] at hc
  cases hc

theorem mentions_times {a : GroupedRegex} {n : ℕ} {c : Char} (h : a.mentions c = false) :
    (a.times n).mentions c = false := by
  induction n with
  | zero => rfl
  | succ n ih => rw [times, mentions, h, ih, Bool.false_or]

theorem mentions_upTo {a : GroupedRegex} {n : ℕ} {c : Char} (h : a.mentions c = false) :
    (a.upTo n).mentions c = false := by
  induction n with
  | zero => rfl
  | succ n ih => rw [upTo, opt, mentions, mentions, mentions, h, ih, Bool.false_or, Bool.false_or]

/-! ### Expressions without groups -/

/-- There is no group in `e`. -/
def groupless : GroupedRegex → Bool
  | .empty | .one _ => true
  | .cat a b | .alt a b => a.groupless && b.groupless
  | .star a => a.groupless
  | .group _ _ => false

theorem Reads.groupless {e : GroupedRegex} {g : Groups} {w : List Char} (h : Reads e g w)
    (he : e.groupless = true) : g = [] := by
  induction h with
  | empty | one _ | starNil => rfl
  | cat _ _ iha ihb =>
      obtain ⟨ha, hb⟩ := Bool.and_eq_true_iff.mp he
      rw [iha ha, ihb hb, List.append_nil]
  | left _ ih => exact ih (Bool.and_eq_true_iff.mp he).1
  | right _ ih => exact ih (Bool.and_eq_true_iff.mp he).2
  | starCons _ _ _ iha ihb => rw [iha he, ihb he, List.append_nil]
  | group _ _ => cases he

theorem groupless_upTo {a : GroupedRegex} (h : a.groupless = true) (n : ℕ) :
    (a.upTo n).groupless = true := by
  induction n with
  | zero => rfl
  | succ n ih =>
      simp only [upTo, opt, GroupedRegex.groupless, h, ih, Bool.and_self]

/-- `(?:c(e))?`: an optional group after a character. -/
theorem reads_opt_group {c : Char} {n : ℕ} {e : GroupedRegex} (he : e.groupless = true) {g : Groups}
    {w : List Char} :
    Reads (opt (.cat (char c) (.group n e))) g w ↔ ∃ part : Option (List Char),
      w = part.elim [] (c :: ·) ∧ g = part.elim [] (fun t => [(n, t)]) ∧
        ∀ t ∈ part, Reads e [] t := by
  rw [reads_opt]
  constructor
  · rintro (h | ⟨rfl, rfl⟩)
    · obtain ⟨_, _, v, w, rfl, rfl, hv, hgroup⟩ := reads_cat.mp h
      obtain ⟨rfl, rfl⟩ := reads_char.mp hv
      obtain ⟨inner, rfl, hw⟩ := reads_group.mp hgroup
      obtain rfl := hw.groupless he
      exact ⟨some w, rfl, rfl, fun t ht => Option.mem_some.mp ht ▸ hw⟩
    · exact ⟨none, rfl, rfl, fun t ht => absurd ht (Option.not_mem_none t)⟩
  · rintro ⟨part, rfl, rfl, h⟩
    cases part with
    | none => exact Or.inr ⟨rfl, rfl⟩
    | some t => exact Or.inl (.cat (.one (decide_eq_true rfl)) (.group (h t rfl)))

/-- `(?:(e)c)?`: an optional group before a character. -/
theorem reads_opt_group_char {c : Char} {n : ℕ} {e : GroupedRegex} (he : e.groupless = true)
    {g : Groups} {w : List Char} :
    Reads (opt (.cat (.group n e) (char c))) g w ↔ ∃ part : Option (List Char),
      w = part.elim [] (· ++ [c]) ∧ g = part.elim [] (fun t => [(n, t)]) ∧
        ∀ t ∈ part, Reads e [] t := by
  rw [reads_opt]
  constructor
  · rintro (h | ⟨rfl, rfl⟩)
    · obtain ⟨_, _, v, w, rfl, rfl, hgroup, hw⟩ := reads_cat.mp h
      obtain ⟨rfl, rfl⟩ := reads_char.mp hw
      obtain ⟨inner, rfl, hv⟩ := reads_group.mp hgroup
      obtain rfl := hv.groupless he
      exact ⟨some v, rfl, rfl, fun t ht => Option.mem_some.mp ht ▸ hv⟩
    · exact ⟨none, rfl, rfl, fun t ht => absurd ht (Option.not_mem_none t)⟩
  · rintro ⟨part, rfl, rfl, h⟩
    cases part with
    | none => exact Or.inr ⟨rfl, rfl⟩
    | some t => exact Or.inl (.cat (.group (h t rfl)) (.one (decide_eq_true rfl)))

end GroupedRegex
