import Mathlib

/-! # Regular expressions

The part of the usual regular expression syntax that needs no alternation and no class but `[^c]`:
characters, `.`, anchors, groups, `*` and `?`.  `Reads` is what an expression matches between what
comes before and after it, `isMatch` the search for a match anywhere, and `parse` reads an
expression.  `ends` computes every end of a match (`mem_ends`), which decides `isMatch`
(`isMatch_iff`). -/

/-- One character of a match. -/
inductive Regex.One where
  | char (c : Char)
  | except (c : Char)
  | dot
deriving DecidableEq

/-- An expression. -/
inductive Regex where
  | empty
  | one (k : Regex.One)
  | start
  | finish
  | cat (a b : Regex)
  | star (a : Regex)
  | opt (a : Regex)
deriving DecidableEq

namespace Regex

/-- `.` is any character but a line feed. -/
def One.accepts : One → Char → Bool
  | char c, d => c = d
  | except c, d => c ≠ d
  | dot, d => d ≠ '\n'

@[simp] theorem One.accepts_char {c d : Char} : (char c).accepts d = true ↔ c = d :=
  decide_eq_true_iff

@[simp] theorem One.accepts_except {c d : Char} : (except c).accepts d = true ↔ d ≠ c := by
  rw [accepts, decide_eq_true_iff, ne_comm]

@[simp] theorem One.accepts_dot {d : Char} : dot.accepts d = true ↔ d ≠ '\n' := decide_eq_true_iff

/-- `e` matches `w`, with `before` before it and `after` after it. -/
inductive Reads : Regex → List Char → List Char → List Char → Prop
  | empty {before after : List Char} : Reads .empty before [] after
  | one {k : One} {c : Char} {before after : List Char} :
      k.accepts c = true → Reads (.one k) before [c] after
  | start {after : List Char} : Reads .start [] [] after
  | finish {before : List Char} : Reads .finish before [] []
  | cat {a b : Regex} {before v w after : List Char} :
      Reads a before v (w ++ after) → Reads b (before ++ v) w after →
        Reads (.cat a b) before (v ++ w) after
  | starNil {a : Regex} {before after : List Char} : Reads (.star a) before [] after
  | starCons {a : Regex} {before v w after : List Char} :
      Reads a before v (w ++ after) → Reads (.star a) (before ++ v) w after →
        Reads (.star a) before (v ++ w) after
  | optNone {a : Regex} {before after : List Char} : Reads (.opt a) before [] after
  | optSome {a : Regex} {before w after : List Char} :
      Reads a before w after → Reads (.opt a) before w after

/-- There is a match somewhere in `text`. -/
def Matches (e : Regex) (text : List Char) : Prop :=
  ∃ before w after, text = before ++ w ++ after ∧ Reads e before w after

/-! ### Matching -/

/-- What is left after as many matches as there are, each of which takes something. -/
def starEnds (next : List Char → List Char → List (List Char × List Char)) :
    ℕ → List Char → List Char → List (List Char × List Char)
  | 0, before, rest => [(before, rest)]
  | fuel + 1, before, rest =>
      (before, rest) :: (next before rest).flatMap fun split =>
        if split.2.length < rest.length then starEnds next fuel split.1 split.2 else []

/-- Every split of the text at the end of a match that starts after `before`. -/
def ends : Regex → List Char → List Char → List (List Char × List Char)
  | .empty, before, rest => [(before, rest)]
  | .one k, before, c :: rest => if k.accepts c then [(before ++ [c], rest)] else []
  | .one _, _, [] => []
  | .start, before, rest => if before = [] then [(before, rest)] else []
  | .finish, before, rest => if rest = [] then [(before, rest)] else []
  | .cat a b, before, rest => (a.ends before rest).flatMap fun split => b.ends split.1 split.2
  | .star a, before, rest => starEnds a.ends rest.length before rest
  | .opt a, before, rest => (before, rest) :: a.ends before rest

/-- `is_match`. -/
def isMatch (e : Regex) (text : List Char) : Bool :=
  (List.range (text.length + 1)).any fun i => !(e.ends (text.take i) (text.drop i)).isEmpty

/-- What `ends` finds of `e` is what `e` reads. -/
def EndsExact (e : Regex) (next : List Char → List Char → List (List Char × List Char)) : Prop :=
  ∀ before rest before' rest', (before', rest') ∈ next before rest ↔
    ∃ w, rest = w ++ rest' ∧ before' = before ++ w ∧ Reads e before w rest'

theorem mem_starEnds {a : Regex} {next : List Char → List Char → List (List Char × List Char)}
    (h : EndsExact a next) {fuel : ℕ} {before rest before' rest' : List Char}
    (hfuel : rest.length ≤ fuel) :
    (before', rest') ∈ starEnds next fuel before rest ↔
      ∃ w, rest = w ++ rest' ∧ before' = before ++ w ∧ Reads (.star a) before w rest' := by
  constructor
  · intro hmem
    clear hfuel
    induction fuel generalizing before rest with
    | zero =>
        rw [starEnds, List.mem_singleton] at hmem
        obtain ⟨rfl, rfl⟩ := Prod.mk.inj hmem
        exact ⟨[], rfl, by simp, .starNil⟩
    | succ fuel ih =>
        rw [starEnds, List.mem_cons] at hmem
        rcases hmem with hmem | hmem
        · obtain ⟨rfl, rfl⟩ := Prod.mk.inj hmem
          exact ⟨[], rfl, by simp, .starNil⟩
        · obtain ⟨split, hsplit, hmem⟩ := List.mem_flatMap.mp hmem
          split_ifs at hmem with hlt
          · obtain ⟨v, hrest, hbefore, hv⟩ := (h before rest split.1 split.2).mp hsplit
            obtain ⟨w, hrest', rfl, hw⟩ := ih hmem
            rw [hrest'] at hv hrest
            rw [hbefore] at hw
            exact ⟨v ++ w, by simp [hrest], by simp [hbefore], .starCons hv hw⟩
          · cases hmem
  · rintro ⟨w, rfl, rfl, hreads⟩
    generalize hstar : Regex.star a = e at hreads
    induction hreads generalizing fuel with
    | starNil => cases fuel <;> simp [starEnds]
    | @starCons a' before v w after hv hw _ ih =>
        obtain rfl := Regex.star.inj hstar
        by_cases hnil : v = []
        · subst hnil
          simpa using ih hfuel rfl
        · have hpos := List.length_pos_iff.mpr hnil
          simp only [List.length_append] at hfuel
          obtain ⟨fuel, rfl⟩ : ∃ n, fuel = n + 1 := ⟨fuel - 1, by omega⟩
          rw [starEnds, List.mem_cons]
          right
          refine List.mem_flatMap.mpr ⟨(before ++ v, w ++ after), ?_, ?_⟩
          · exact (h _ _ _ _).mpr ⟨v, by simp, rfl, hv⟩
          · rw [if_pos (by simp only [List.length_append]; omega), ← List.append_assoc]
            exact ih (by simp only [List.length_append]; omega) rfl
    | _ => cases hstar

theorem mem_ends (e : Regex) : EndsExact e e.ends := by
  induction e with
  | empty =>
      intro before rest before' rest'
      rw [ends, List.mem_singleton]
      constructor
      · intro h
        obtain ⟨rfl, rfl⟩ := Prod.mk.inj h
        exact ⟨[], rfl, by simp, .empty⟩
      · rintro ⟨w, rfl, rfl, h⟩
        cases h
        simp
  | one k =>
      intro before rest before' rest'
      constructor
      · intro h
        cases rest with
        | nil => cases h
        | cons c rest =>
            rw [ends] at h
            split_ifs at h with hk
            · obtain ⟨rfl, rfl⟩ := Prod.mk.inj (List.mem_singleton.mp h)
              exact ⟨[c], rfl, rfl, .one hk⟩
            · cases h
      · rintro ⟨w, rfl, rfl, h⟩
        cases h with
        | one hk => simp [ends, hk]
  | start =>
      intro before rest before' rest'
      rw [ends]
      constructor
      · intro h
        split_ifs at h with hbefore
        · obtain ⟨rfl, rfl⟩ := Prod.mk.inj (List.mem_singleton.mp h)
          subst hbefore
          exact ⟨[], rfl, rfl, .start⟩
        · cases h
      · rintro ⟨w, rfl, rfl, h⟩
        cases h
        simp
  | finish =>
      intro before rest before' rest'
      rw [ends]
      constructor
      · intro h
        split_ifs at h with hrest
        · obtain ⟨rfl, rfl⟩ := Prod.mk.inj (List.mem_singleton.mp h)
          subst hrest
          exact ⟨[], rfl, by simp, .finish⟩
        · cases h
      · rintro ⟨w, rfl, rfl, h⟩
        cases h
        simp
  | cat a b iha ihb =>
      intro before rest before' rest'
      rw [ends, List.mem_flatMap]
      constructor
      · rintro ⟨split, hsplit, hmem⟩
        obtain ⟨v, hrest, hbefore, hv⟩ := (iha before rest split.1 split.2).mp hsplit
        obtain ⟨w, hrest', rfl, hw⟩ := (ihb split.1 split.2 before' rest').mp hmem
        rw [hrest'] at hv hrest
        rw [hbefore] at hw
        exact ⟨v ++ w, by simp [hrest], by simp [hbefore], .cat hv hw⟩
      · rintro ⟨x, rfl, rfl, h⟩
        cases h with
        | @cat _ _ _ v w _ hv hw =>
            refine ⟨(before ++ v, w ++ rest'), (iha _ _ _ _).mpr ⟨v, by simp, rfl, hv⟩, ?_⟩
            exact (ihb _ _ _ _).mpr ⟨w, rfl, by simp, hw⟩
  | star a ih =>
      intro before rest before' rest'
      exact mem_starEnds ih le_rfl
  | opt a ih =>
      intro before rest before' rest'
      rw [ends, List.mem_cons, ih before rest before' rest']
      constructor
      · rintro (h | ⟨w, hrest, hbefore, hw⟩)
        · obtain ⟨rfl, rfl⟩ := Prod.mk.inj h
          exact ⟨[], rfl, by simp, .optNone⟩
        · exact ⟨w, hrest, hbefore, .optSome hw⟩
      · rintro ⟨w, rfl, rfl, h⟩
        cases h with
        | optNone => simp
        | optSome h => exact .inr ⟨w, rfl, rfl, h⟩

theorem isMatch_iff {e : Regex} {text : List Char} : e.isMatch text = true ↔ e.Matches text := by
  rw [isMatch, List.any_eq_true]
  constructor
  · rintro ⟨i, -, h⟩
    cases hends : e.ends (text.take i) (text.drop i) with
    | nil => simp [hends] at h
    | cons split rest =>
        have hsplit : (split.1, split.2) ∈ e.ends (text.take i) (text.drop i) := by
          rw [hends]
          exact List.mem_cons_self
        obtain ⟨w, hdrop, -, hw⟩ := (mem_ends e _ _ _ _).mp hsplit
        refine ⟨text.take i, w, split.2, ?_, hw⟩
        rw [List.append_assoc, ← hdrop, List.take_append_drop]
  · rintro ⟨before, w, after, rfl, h⟩
    refine ⟨before.length, by simp, ?_⟩
    have hsplit : (before ++ w, after) ∈ e.ends before (w ++ after) :=
      (mem_ends e _ _ _ _).mpr ⟨w, rfl, rfl, h⟩
    rw [List.append_assoc, List.take_left, List.drop_left]
    cases hends : e.ends before (w ++ after) with
    | nil => simp [hends] at hsplit
    | cons split rest => rfl

/-! ### Reading an expression -/

/-- The characters an expression writes with a backslash. -/
def isMeta (c : Char) : Bool := "\\.+*?()|[]\x7b\x7d^$".toList.contains c

/-- The characters a class gives a meaning, beside those. -/
def isClassMeta (c : Char) : Bool := isMeta c || c = '-' || c = '&' || c = '~'

inductive Token where
  | atom (e : Regex)
  | openGroup
  | closeGroup
  | star
  | opt
deriving DecidableEq

/-- The token a character is by itself. -/
def token : Char → Option Token
  | '.' => some (.atom (.one .dot))
  | '^' => some (.atom .start)
  | '$' => some (.atom .finish)
  | '(' => some .openGroup
  | ')' => some .closeGroup
  | '*' => some .star
  | '?' => some .opt
  | c => if isMeta c then none else some (.atom (.one (.char c)))

/-- The tokens of an expression, where it is one of those above. -/
def tokens : List Char → Option (List Token)
  | [] => some []
  | '\\' :: c :: rest =>
      if isMeta c then (tokens rest).map (.atom (.one (.char c)) :: ·) else none
  | '[' :: '^' :: c :: ']' :: rest =>
      if isClassMeta c then none else (tokens rest).map (.atom (.one (.except c)) :: ·)
  | c :: rest => (token c).bind fun t => (tokens rest).map (t :: ·)

def catAll (items : List Regex) : Regex := items.foldr .cat .empty

/-- What has been read: the items of the innermost group, the last first, and of those around it. -/
structure Reading where
  items : List Regex
  outer : List (List Regex)
deriving DecidableEq

/-- A repetition is not repeated again. -/
def repeatable : Regex → Bool
  | .star _ | .opt _ => false
  | _ => true

def Reading.push (reading : Reading) : Token → Option Reading
  | .atom e => some { reading with items := e :: reading.items }
  | .openGroup => some ⟨[], reading.items :: reading.outer⟩
  | .closeGroup =>
      match reading.outer with
      | [] => none
      | items :: outer => some ⟨catAll reading.items.reverse :: items, outer⟩
  | .star =>
      match reading.items with
      | [] => none
      | e :: items => if repeatable e then some { reading with items := .star e :: items } else none
  | .opt =>
      match reading.items with
      | [] => none
      | e :: items => if repeatable e then some { reading with items := .opt e :: items } else none

/-- `Regex::new`, of the expressions above. -/
def parse (text : List Char) : Option Regex := do
  let reading ← (← tokens text).foldlM Reading.push ⟨[], []⟩
  if reading.outer = [] then some (catAll reading.items.reverse) else none

theorem tokens_escaped {c : Char} (h : isMeta c = true) (rest : List Char) :
    tokens ('\\' :: c :: rest) = (tokens rest).map (.atom (.one (.char c)) :: ·) := by
  rw [tokens, if_pos h]

theorem tokens_except {c : Char} (h : isClassMeta c = false) (rest : List Char) :
    tokens ('[' :: '^' :: c :: ']' :: rest) =
      (tokens rest).map (.atom (.one (.except c)) :: ·) := by
  rw [tokens, if_neg (by simp [h])]

/-- A character that begins no escape and no class is a token. -/
theorem tokens_cons {c : Char} (hescape : c ≠ '\\') (hclass : c ≠ '[') (rest : List Char) :
    tokens (c :: rest) = (token c).bind fun t => (tokens rest).map (t :: ·) := by
  rw [tokens.eq_def]
  split
  · next h => cases h
  · next h => exact absurd (List.cons.inj h).1 hescape
  · next h => exact absurd (List.cons.inj h).1 hclass
  · next c' rest' _ _ h =>
      obtain ⟨rfl, rfl⟩ := List.cons.inj h
      rfl

/-- A character that is no operator is itself. -/
theorem tokens_char {c : Char} (h : isMeta c = false) (rest : List Char) :
    tokens (c :: rest) = (tokens rest).map (.atom (.one (.char c)) :: ·) := by
  have hne : ∀ d, isMeta d = true → c ≠ d := by
    rintro d hd rfl
    rw [h] at hd
    cases hd
  rw [tokens_cons (hne _ rfl) (hne _ rfl)]
  have htoken : token c = some (.atom (.one (.char c))) := by
    rw [token.eq_def]
    split
    · exact absurd rfl (hne '.' rfl)
    · exact absurd rfl (hne '^' rfl)
    · exact absurd rfl (hne '$' rfl)
    · exact absurd rfl (hne '(' rfl)
    · exact absurd rfl (hne ')' rfl)
    · exact absurd rfl (hne '*' rfl)
    · exact absurd rfl (hne '?' rfl)
    · rw [h]
      rfl
  rw [htoken]
  rfl

/-! ### What each expression reads -/

section reads

variable {before w after : List Char}

theorem reads_empty : Reads .empty before w after ↔ w = [] := by
  constructor
  · rintro ⟨⟩
    rfl
  · rintro rfl
    exact .empty

theorem reads_one {k : One} :
    Reads (.one k) before w after ↔ ∃ c, w = [c] ∧ k.accepts c = true := by
  constructor
  · rintro ⟨⟩
    exact ⟨_, rfl, by assumption⟩
  · rintro ⟨c, rfl, h⟩
    exact .one h

theorem reads_start : Reads .start before w after ↔ before = [] ∧ w = [] := by
  constructor
  · rintro ⟨⟩
    exact ⟨rfl, rfl⟩
  · rintro ⟨rfl, rfl⟩
    exact .start

theorem reads_finish : Reads .finish before w after ↔ w = [] ∧ after = [] := by
  constructor
  · rintro ⟨⟩
    exact ⟨rfl, rfl⟩
  · rintro ⟨rfl, rfl⟩
    exact .finish

theorem reads_cat {a b : Regex} : Reads (.cat a b) before w after ↔
    ∃ u v, w = u ++ v ∧ Reads a before u (v ++ after) ∧ Reads b (before ++ u) v after := by
  constructor
  · rintro ⟨⟩
    exact ⟨_, _, rfl, by assumption, by assumption⟩
  · rintro ⟨u, v, rfl, hu, hv⟩
    exact .cat hu hv

theorem reads_opt {a : Regex} :
    Reads (.opt a) before w after ↔ w = [] ∨ Reads a before w after := by
  constructor
  · intro h
    cases h with
    | optNone => exact .inl rfl
    | optSome h => exact .inr h
  · rintro (rfl | h)
    · exact .optNone
    · exact .optSome h

/-- A run of single characters. -/
theorem reads_star_one {k : One} :
    Reads (.star (.one k)) before w after ↔ ∀ c ∈ w, k.accepts c = true := by
  constructor
  · intro h
    generalize hstar : Regex.star (.one k) = e at h
    induction h with
    | starNil => simp
    | starCons hv _ _ ih =>
        obtain rfl := Regex.star.inj hstar
        obtain ⟨c, rfl, hc⟩ := reads_one.mp hv
        simpa [hc] using ih rfl
    | _ => cases hstar
  · intro h
    induction w generalizing before with
    | nil => exact .starNil
    | cons c w ih =>
        have hc : Reads (.one k) before [c] (w ++ after) := .one (h c List.mem_cons_self)
        exact .starCons hc (ih fun d hd => h d (List.mem_cons_of_mem _ hd))

theorem reads_catAll_append {a b : List Regex} : Reads (catAll (a ++ b)) before w after ↔
    ∃ u v, w = u ++ v ∧ Reads (catAll a) before u (v ++ after) ∧
      Reads (catAll b) (before ++ u) v after := by
  induction a generalizing before w with
  | nil =>
      constructor
      · exact fun h => ⟨[], w, rfl, .empty, by simpa using h⟩
      · rintro ⟨u, v, rfl, hu, hv⟩
        obtain rfl := reads_empty.mp hu
        simpa using hv
  | cons e a ih =>
      constructor
      · intro h
        obtain ⟨u, v, rfl, hu, hv⟩ := reads_cat.mp h
        obtain ⟨v₁, v₂, rfl, hv₁, hv₂⟩ := ih.mp hv
        refine ⟨u ++ v₁, v₂, by simp, ?_, by simpa using hv₂⟩
        exact .cat (by simpa using hu) hv₁
      · rintro ⟨u, v, rfl, hu, hv⟩
        obtain ⟨u₁, u₂, rfl, hu₁, hu₂⟩ := reads_cat.mp hu
        rw [List.append_assoc]
        exact .cat (by simpa using hu₁) (ih.mpr ⟨u₂, v, rfl, hu₂, by simpa using hv⟩)

/-- An expression between anchors reads the whole text. -/
theorem matches_anchored {items : List Regex} {text : List Char} :
    Matches (catAll (.start :: items ++ [.finish])) text ↔ Reads (catAll items) [] text [] := by
  constructor
  · rintro ⟨before, w, after, rfl, h⟩
    obtain ⟨u, v, rfl, hu, hv⟩ := reads_cat.mp h
    obtain ⟨rfl, rfl⟩ := reads_start.mp hu
    obtain ⟨w, v, rfl, hw, hfinish⟩ := reads_catAll_append.mp hv
    obtain ⟨x, y, rfl, hx, hy⟩ := reads_cat.mp hfinish
    obtain ⟨rfl, hafter⟩ := reads_finish.mp hx
    obtain rfl := reads_empty.mp hy
    obtain rfl : after = [] := by simpa using hafter
    simpa using hw
  · intro h
    refine ⟨[], text, [], by simp, ?_⟩
    have hend : Reads (catAll [.finish]) text [] [] := .cat (v := []) .finish .empty
    exact .cat (v := []) .start
      (reads_catAll_append.mpr ⟨text, [], by simp, by simpa using h, by simpa using hend⟩)

end reads

/-- The single characters of an expression. -/
def ones : Regex → List One
  | .empty | .start | .finish => []
  | .one k => [k]
  | .cat a b => a.ones ++ b.ones
  | .star a | .opt a => a.ones

/-- A text stays a match where every character is replaced by one that does as well. -/
theorem Reads.map {e : Regex} {before w after : List Char} (h : Reads e before w after)
    {f : Char → Char} (hf : ∀ k ∈ e.ones, ∀ c, k.accepts c = true → k.accepts (f c) = true) :
    Reads e (before.map f) (w.map f) (after.map f) := by
  induction h with
  | empty => exact .empty
  | one hk => exact .one (hf _ (by simp [ones]) _ hk)
  | start => exact .start
  | finish => exact .finish
  | cat _ _ ihv ihw =>
      rw [List.map_append]
      have hv := ihv fun k hk => hf k (by simp [ones, hk])
      have hw := ihw fun k hk => hf k (by simp [ones, hk])
      exact .cat (by simpa using hv) (by simpa using hw)
  | starNil => exact .starNil
  | starCons _ _ ihv ihw =>
      rw [List.map_append]
      have hv := ihv fun k hk => hf k (by simpa [ones] using hk)
      have hw := ihw fun k hk => hf k (by simpa [ones] using hk)
      exact .starCons (by simpa using hv) (by simpa using hw)
  | optNone => exact .optNone
  | optSome _ ih => exact .optSome (ih fun k hk => hf k (by simpa [ones] using hk))

end Regex
