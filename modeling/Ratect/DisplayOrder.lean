import Ratect.Strings

/-! # The display order of build steps

`display_order` (`docker/build_output.rs`) orders the steps that start in one update: one step at a
time, the first whose inputs are all placed and which no step still to place precedes.  A panic of
the source is `none` here.  None happens, and every step is displayed (`displayOrder_perm`).  The
rules that compare names are a strict partial order, so one of the steps that are left has none
before it: the order keeps to the inputs where these have no cycle, and to the rules where there are
none (`display_order_correct`). -/

namespace Ratect.BuildOutput

/-- `Vertex`, as far as it is read: of a time stamp, whether there is one. -/
structure Vertex where
  digest : Text
  inputs : List Text
  name : Text
  cached : Bool
  started : Bool
  completed : Bool
  error : Text
deriving DecidableEq

/-- `str::find`: where `needle` first begins. -/
def findText (needle : Text) : Text → Option ℕ
  | [] => if needle = [] then some 0 else none
  | c :: rest =>
      if needle.isPrefixOf (c :: rest) = true then some 0 else (findText needle rest).map (· + 1)

/-- `rsplit_once`. -/
def rsplitOnce (separator : Char) (t : Text) : Option (Text × Text) :=
  (rfind separator t).map fun i => (t.take i, t.drop (i + 1))

/-- `rank`. -/
def rank (name : Text) : ℕ :=
  if "[internal] load build definition ".toList.isPrefixOf name = true then 0
  else if "[internal] ".toList.isPrefixOf name = true then 1
  else if "[".toList.isPrefixOf name = true then 2
  else 3

/-- The stage and the step's number in the text between the brackets. -/
def stageCounter (identifier : Text) : Option (Text × ℕ) := do
  let (stage, counter) :=
    match rsplitOnce ' ' identifier with
    | some (stage, counter) => (trim stage, counter)
    | none => ([], identifier)
  let (step, _) ← splitOnce '/' counter
  let number ← parseUnsigned (2 ^ 32 - 1) step
  some (stage, number)

/-- `stage_step`: what is inside of the brackets starts after the first character and ends one
before the place that was found, which panics at a place before the text or after it. -/
def stageStep (name : Text) : Option (Option (Text × ℕ)) :=
  match name with
  | '[' :: inside =>
      match findText "] ".toList name with
      | none => some none
      | some i =>
          if i = 0 ∨ inside.length < i - 1 then none else some (stageCounter (inside.take (i - 1)))
  | _ => some none

/-- `displays_before`. -/
def displaysBefore (first second : Vertex) : Option Bool :=
  if rank first.name ≠ rank second.name then some (decide (rank first.name < rank second.name))
  else do
    let firstStep ← stageStep first.name
    let secondStep ← stageStep second.name
    match firstStep, secondStep with
    | some (firstStage, firstNumber), some (secondStage, secondNumber) =>
        some (decide (firstStage = secondStage ∧ firstNumber < secondNumber))
    | _, _ => some false

section batch

variable (batch : List Vertex)

/-- `waits_for_input`. -/
def waitsForInput (vertex : Vertex) : Bool :=
  vertex.inputs.any fun input => batch.any fun other => other.digest = input

/-- The steps that wait for none, or all of them where each waits for another. -/
def readySteps : List (Fin batch.length) :=
  let ready :=
    (List.finRange batch.length).filter fun index => !waitsForInput batch (batch.get index)
  if ready = [] then List.finRange batch.length else ready

/-- `preceded_by_none_of`. -/
def precededByNoneOf (candidates : List (Fin batch.length))
    (index : Fin batch.length) : Option Bool :=
  candidates.allM fun other => (displaysBefore (batch.get other) (batch.get index)).map (!·)

/-- The step that is displayed next. -/
def nextStep : Option (Fin batch.length) := do
  let ready := readySteps batch
  match ← ready.findM? (precededByNoneOf batch (List.finRange batch.length)) with
  | some index => some index
  | none =>
      match ← ready.findM? (precededByNoneOf batch ready) with
      | some index => some index
      | none => ready.head?

end batch

/-- The order, so many steps at most. -/
def displayOrderFrom : ℕ → List Vertex → Option (List Vertex)
  | _, [] => some []
  | 0, _ :: _ => none
  | fuel + 1, batch => do
      let next ← nextStep batch
      let ordered ← displayOrderFrom fuel (batch.eraseIdx next)
      some (batch.get next :: ordered)

/-- `display_order`. -/
def displayOrder (batch : List Vertex) : Option (List Vertex) := displayOrderFrom batch.length batch

/-! ### No panic -/

theorem findText_le {needle t : Text} {i : ℕ} (h : findText needle t = some i) : i ≤ t.length := by
  induction t generalizing i with
  | nil =>
      rw [findText] at h
      split_ifs at h
      rw [← Option.some.inj h]
      exact le_rfl
  | cons c t ih =>
      rw [findText] at h
      split_ifs at h
      · rw [← Option.some.inj h]
        exact Nat.zero_le _
      · obtain ⟨j, hj, rfl⟩ := Option.map_eq_some_iff.mp h
        exact Nat.succ_le_succ (ih hj)

/-- The closing bracket is after the opening one, and in the text. -/
theorem stageStep_total (name : Text) : ∃ result, stageStep name = some result := by
  unfold stageStep
  split
  · next inside =>
      split
      · exact ⟨none, rfl⟩
      · next i hfind =>
          have hle := findText_le hfind
          rw [findText, if_neg (show ¬"] ".toList.isPrefixOf ('[' :: inside) =
            true from Bool.false_ne_true)] at hfind
          obtain ⟨j, -, rfl⟩ := Option.map_eq_some_iff.mp hfind
          rw [List.length_cons] at hle
          rw [if_neg (by omega)]
          exact ⟨_, rfl⟩
  · exact ⟨none, rfl⟩

theorem displaysBefore_total (first second : Vertex) :
    ∃ b, displaysBefore first second = some b := by
  unfold displaysBefore
  split
  · exact ⟨_, rfl⟩
  · obtain ⟨firstStep, hfirst⟩ := stageStep_total first.name
    obtain ⟨secondStep, hsecond⟩ := stageStep_total second.name
    rw [hfirst, hsecond, Option.bind_eq_bind, Option.bind_some, Option.bind_some]
    split
    · exact ⟨_, rfl⟩
    · exact ⟨_, rfl⟩

/-- Rules 2 to 4 put one step before another. -/
def Precedes (first second : Vertex) : Prop := displaysBefore first second = some true

instance : DecidableRel Precedes := fun first second =>
  inferInstanceAs (Decidable (displaysBefore first second = some true))

theorem displaysBefore_eq (first second : Vertex) :
    displaysBefore first second = some (decide (Precedes first second)) := by
  obtain ⟨b, hb⟩ := displaysBefore_total first second
  have hiff : Precedes first second ↔ b = true := by
    unfold Precedes
    rw [hb, Option.some.injEq]
  rw [hb]
  cases b with
  | true => rw [decide_eq_true (hiff.mpr rfl)]
  | false => rw [decide_eq_false fun h => Bool.false_ne_true (hiff.mp h)]

theorem allM_eq {α : Type} {p : α → Option Bool} {q : α → Bool} (h : ∀ a, p a = some (q a))
    (l : List α) : l.allM p = some (l.all q) := by
  induction l with
  | nil => rfl
  | cons a l ih =>
      rw [List.allM, h a, Option.bind_eq_bind, Option.bind_some, List.all_cons]
      cases q a with
      | true => exact ih
      | false => rfl

theorem findM?_eq {α : Type} {p : α → Option Bool} {q : α → Bool} (h : ∀ a, p a = some (q a))
    (l : List α) : l.findM? p = some (l.find? q) := by
  induction l with
  | nil => rfl
  | cons a l ih =>
      rw [List.findM?, h a, Option.bind_eq_bind, Option.bind_some, List.find?_cons]
      cases q a with
      | true => rfl
      | false => exact ih

section next

variable (batch : List Vertex)

/-- None of the candidates precedes a step. -/
def noneBefore (candidates : List (Fin batch.length)) (index : Fin batch.length) : Bool :=
  candidates.all fun other => !decide (Precedes (batch.get other) (batch.get index))

theorem precededByNoneOf_eq (candidates : List (Fin batch.length)) (index : Fin batch.length) :
    precededByNoneOf batch candidates index = some (noneBefore batch candidates index) := by
  refine allM_eq (fun other => ?_) candidates
  rw [displaysBefore_eq]
  rfl

/-- The step that is displayed next, with no panic left. -/
theorem nextStep_eq : nextStep batch =
    (((readySteps batch).find? (noneBefore batch (List.finRange batch.length))).or
      ((readySteps batch).find? (noneBefore batch (readySteps batch)))).or
        (readySteps batch).head? := by
  unfold nextStep
  dsimp only
  rw [findM?_eq (precededByNoneOf_eq batch _), Option.bind_eq_bind, Option.bind_some]
  cases (readySteps batch).find? (noneBefore batch (List.finRange batch.length)) with
  | some index => rfl
  | none =>
      dsimp only
      rw [findM?_eq (precededByNoneOf_eq batch _), Option.bind_some]
      cases (readySteps batch).find? (noneBefore batch (readySteps batch)) with
      | some index => rfl
      | none => rfl

end next

theorem readySteps_ne_nil {batch : List Vertex} (h : batch ≠ []) : readySteps batch ≠ [] := by
  unfold readySteps
  dsimp only
  split
  · rw [ne_eq, List.finRange_eq_nil_iff, List.length_eq_zero_iff]
    exact h
  · next hready => exact hready

theorem nextStep_total {batch : List Vertex} (h : batch ≠ []) :
    ∃ next, nextStep batch = some next := by
  obtain ⟨index, more, hready⟩ := List.exists_cons_of_ne_nil (readySteps_ne_nil h)
  rw [nextStep_eq, ← Option.isSome_iff_exists, Option.isSome_or, Bool.or_eq_true]
  right
  rw [hready]
  rfl

theorem displayOrderFrom_perm {fuel : ℕ} {batch : List Vertex} (h : batch.length ≤ fuel) :
    ∃ ordered, displayOrderFrom fuel batch = some ordered ∧ ordered.Perm batch := by
  induction fuel generalizing batch with
  | zero =>
      rw [List.length_eq_zero_iff.mp (Nat.le_zero.mp h)]
      exact ⟨[], rfl, .nil⟩
  | succ fuel ih =>
      cases batch with
      | nil => exact ⟨[], rfl, .nil⟩
      | cons vertex batch =>
          obtain ⟨next, hnext⟩ := nextStep_total (List.cons_ne_nil vertex batch)
          have hlength : ((vertex :: batch).eraseIdx next).length ≤ fuel := by
            rw [List.length_eraseIdx_of_lt next.isLt]
            omega
          obtain ⟨ordered, hordered, hperm⟩ := ih hlength
          refine ⟨(vertex :: batch).get next :: ordered, ?_, ?_⟩
          · rw [displayOrderFrom, hnext, Option.bind_eq_bind, Option.bind_some, hordered]
            · rfl
            · exact List.cons_ne_nil vertex batch
          · exact (hperm.cons _).trans (List.getElem_cons_eraseIdx_perm next.isLt)

/-- Every step of the batch is displayed, and nothing else. -/
theorem displayOrder_perm (batch : List Vertex) :
    ∃ ordered, displayOrder batch = some ordered ∧ ordered.Perm batch :=
  displayOrderFrom_perm le_rfl

/-! ### Rules 2 to 4 -/

theorem precedes_iff {first second : Vertex} : Precedes first second ↔
    rank first.name < rank second.name ∨ rank first.name = rank second.name ∧ ∃ stage m n,
      stageStep first.name = some (some (stage, m)) ∧
        stageStep second.name = some (some (stage, n)) ∧ m < n := by
  obtain ⟨firstStep, hfirst⟩ := stageStep_total first.name
  obtain ⟨secondStep, hsecond⟩ := stageStep_total second.name
  unfold Precedes displaysBefore
  by_cases hrank : rank first.name = rank second.name
  · rw [if_neg (not_not.mpr hrank), hfirst, hsecond]
    cases firstStep with
    | none => simp [hrank]
    | some firstStep =>
        cases secondStep with
        | none => simp [hrank]
        | some secondStep =>
            obtain ⟨firstStage, m⟩ := firstStep
            obtain ⟨secondStage, n⟩ := secondStep
            simp only [Option.bind_eq_bind, Option.bind_some, Option.some.injEq,
              decide_eq_true_eq, hrank, lt_self_iff_false, false_or, true_and, Prod.mk.injEq]
            constructor
            · rintro ⟨rfl, hlt⟩
              exact ⟨firstStage, m, n, ⟨rfl, rfl⟩, ⟨rfl, rfl⟩, hlt⟩
            · rintro ⟨stage, m', n', ⟨rfl, rfl⟩, ⟨rfl, rfl⟩, hlt⟩
              exact ⟨rfl, hlt⟩
  · rw [if_pos hrank]
    simp [hrank]

theorem precedes_irrefl (vertex : Vertex) : ¬ Precedes vertex vertex := by
  rw [precedes_iff]
  rintro (hrank | ⟨-, stage, m, n, hfirst, hsecond, hlt⟩)
  · exact lt_irrefl _ hrank
  · rw [hfirst] at hsecond
    cases hsecond
    exact lt_irrefl _ hlt

theorem Precedes.trans {a b c : Vertex} (hab : Precedes a b)
    (hbc : Precedes b c) : Precedes a c := by
  rw [precedes_iff] at *
  rcases hab with hab | ⟨hab, stage, m, n, ha, hb, hmn⟩
  · rcases hbc with hbc | ⟨hbc, -⟩
    · exact Or.inl (hab.trans hbc)
    · exact Or.inl (hab.trans_eq hbc)
  · rcases hbc with hbc | ⟨hbc, stage', n', k, hb', hc, hnk⟩
    · exact Or.inl (hab.trans_lt hbc)
    · rw [hb] at hb'
      cases hb'
      exact Or.inr ⟨hab.trans hbc, stage, m, k, ha, hc, hmn.trans hnk⟩

/-- Rules 2 to 4 are a strict partial order. -/
instance : IsStrictOrder Vertex Precedes where
  irrefl := precedes_irrefl
  trans _ _ _ := Precedes.trans

/-- Of finitely many, one has none before it. -/
theorem exists_none_before {n : ℕ} {r : Fin n → Fin n → Prop}
    (htrans : ∀ {a b c}, r a b → r b c → r a c) (hirrefl : ∀ a, ¬ r a a) (hn : 0 < n) :
    ∃ a, ∀ b, ¬ r b a := by
  have : IsTrans (Fin n) r := ⟨fun _ _ _ => htrans⟩
  have : Std.Irrefl r := ⟨hirrefl⟩
  have hwf : WellFounded r := Finite.wellFounded_of_trans_of_irrefl r
  obtain ⟨a, -, ha⟩ := hwf.has_min Set.univ ⟨⟨0, hn⟩, trivial⟩
  exact ⟨a, fun b => ha b trivial⟩

/-! ### Inputs -/

/-- A step of the batch is an input of another one. -/
def IsInput (batch : List Vertex) (input vertex : Vertex) : Prop :=
  input ∈ batch ∧ vertex ∈ batch ∧ input.digest ∈ vertex.inputs

/-- No step is an input of its own inputs, however far down. -/
def Acyclic (batch : List Vertex) : Prop :=
  ∀ vertex, ¬ Relation.TransGen (IsInput batch) vertex vertex

theorem Acyclic.subset {batch smaller : List Vertex} (h : Acyclic batch) (hsub : smaller ⊆ batch) :
    Acyclic smaller := by
  intro vertex hcycle
  refine h vertex (Relation.TransGen.mono ?_ _ _ hcycle)
  rintro input vertex ⟨hinput, hvertex, hdigest⟩
  exact ⟨hsub hinput, hsub hvertex, hdigest⟩

theorem waitsForInput_eq_false {batch : List Vertex} {vertex : Vertex} :
    waitsForInput batch vertex = false ↔ ∀ other ∈ batch, other.digest ∉ vertex.inputs := by
  unfold waitsForInput
  rw [List.any_eq_false]
  simp only [List.any_eq_true, decide_eq_true_eq, not_exists, not_and]
  exact ⟨fun h other hother hinput => h _ hinput other hother rfl,
    fun h input hinput other hother heq => h other hother (heq ▸ hinput)⟩

theorem mem_readySteps_of_nextStep {batch : List Vertex} {next : Fin batch.length}
    (h : nextStep batch = some next) : next ∈ readySteps batch := by
  rw [nextStep_eq, Option.or_eq_some_iff, Option.or_eq_some_iff] at h
  rcases h with (h | ⟨-, h⟩) | ⟨-, h⟩
  · exact List.mem_of_find?_eq_some h
  · exact List.mem_of_find?_eq_some h
  · exact List.mem_of_mem_head? h

/-- Without a cycle, the next step is an input of none and has none. -/
theorem Acyclic.nextStep {batch : List Vertex} (h : Acyclic batch) {next : Fin batch.length}
    (hnext : nextStep batch = some next) :
    ∀ other ∈ batch, other.digest ∉ (batch.get next).inputs := by
  have hready : (List.finRange batch.length).filter
      (fun index => !waitsForInput batch (batch.get index)) ≠ [] := by
    obtain ⟨first, hfirst⟩ := exists_none_before
      (r := fun j i => Relation.TransGen (IsInput batch) (batch.get j) (batch.get i))
      (fun hab hbc => hab.trans hbc) (fun i => h (batch.get i)) (Fin.pos next)
    apply List.ne_nil_of_mem (a := first)
    rw [List.mem_filter, Bool.not_eq_true', waitsForInput_eq_false]
    refine ⟨List.mem_finRange first, ?_⟩
    intro other hother hinput
    obtain ⟨index, rfl⟩ := List.mem_iff_get.mp hother
    exact hfirst index (.single ⟨hother, List.get_mem batch first, hinput⟩)
  have hmem := mem_readySteps_of_nextStep hnext
  unfold readySteps at hmem
  dsimp only at hmem
  rw [if_neg hready, List.mem_filter, Bool.not_eq_true', waitsForInput_eq_false] at hmem
  exact hmem.2

/-- One step of the order. -/
theorem displayOrderFrom_eq_some {fuel : ℕ} {batch ordered : List Vertex} (hbatch : batch ≠ [])
    (h : displayOrderFrom (fuel + 1) batch = some ordered) :
    ∃ next rest,
      nextStep batch = some next ∧ displayOrderFrom fuel (batch.eraseIdx next) = some rest ∧
      ordered = batch.get next :: rest := by
  rw [displayOrderFrom] at h
  · obtain ⟨next, hnext, h⟩ := Option.bind_eq_some_iff.mp h
    obtain ⟨rest, hrest, h⟩ := Option.bind_eq_some_iff.mp h
    exact ⟨next, rest, hnext, hrest, (Option.some.inj h).symm⟩
  · exact hbatch

theorem length_eraseIdx_le {fuel : ℕ} {batch : List Vertex} (hfuel : batch.length ≤ fuel + 1)
    (next : Fin batch.length) : (batch.eraseIdx next).length ≤ fuel := by
  rw [List.length_eraseIdx_of_lt next.isLt]
  omega

/-- Without a cycle, no step is placed before an input of it. -/
theorem displayOrderFrom_inputs {fuel : ℕ} {batch ordered : List Vertex}
    (hfuel : batch.length ≤ fuel) (h : displayOrderFrom fuel batch = some ordered)
    (hacyclic : Acyclic batch) :
    ordered.Pairwise fun first later => later.digest ∉ first.inputs := by
  induction fuel generalizing batch ordered with
  | zero =>
      rw [List.length_eq_zero_iff.mp (Nat.le_zero.mp hfuel)] at h
      cases h
      exact .nil
  | succ fuel ih =>
      by_cases hbatch : batch = []
      · subst hbatch
        cases h
        exact .nil
      · obtain ⟨next, rest, hnext, hrest, rfl⟩ := displayOrderFrom_eq_some hbatch h
        have hlength := length_eraseIdx_le hfuel next
        obtain ⟨rest', hrest', hperm⟩ := displayOrderFrom_perm hlength
        rw [hrest] at hrest'
        cases hrest'
        refine .cons ?_ (ih hlength hrest (hacyclic.subset (List.eraseIdx_subset)))
        intro later hlater
        exact hacyclic.nextStep hnext later (List.eraseIdx_subset (hperm.mem_iff.mp hlater))

/-! ### Without inputs -/

/-- At each position, the first of the steps that are left which none of these precedes. -/
inductive PicksFirst : List Vertex → List Vertex → Prop
  | nil : PicksFirst [] []
  | cons {before after ordered : List Vertex} {next : Vertex} :
      (∀ other ∈ before ++ next :: after, ¬ Precedes other next) →
      (∀ earlier ∈ before, ∃ other ∈ before ++ next :: after, Precedes other earlier) →
      PicksFirst (before ++ after) ordered → PicksFirst (before ++ next :: after) (next :: ordered)

theorem PicksFirst.perm {batch ordered : List Vertex} (h : PicksFirst batch ordered) :
    ordered.Perm batch := by
  induction h with
  | nil => exact .nil
  | cons _ _ _ ih => exact (ih.cons _).trans List.perm_middle.symm

/-- Such an order extends the rules. -/
theorem PicksFirst.extends {batch ordered : List Vertex} (h : PicksFirst batch ordered) :
    ordered.Pairwise fun first later => ¬ Precedes later first := by
  induction h with
  | nil => exact .nil
  | @cons before after ordered next hnone _ hrest ih =>
      refine .cons ?_ ih
      intro later hlater
      apply hnone
      rcases List.mem_append.mp (hrest.perm.mem_iff.mp hlater) with hmem | hmem
      · exact List.mem_append_left _ hmem
      · exact List.mem_append_right _ (List.mem_cons_of_mem _ hmem)

theorem noneBefore_all {batch : List Vertex} {index : Fin batch.length} :
    noneBefore batch (List.finRange batch.length) index = true ↔
      ∀ other ∈ batch, ¬ Precedes other (batch.get index) := by
  unfold noneBefore
  rw [List.all_eq_true]
  simp only [Bool.not_eq_true', decide_eq_false_iff_not]
  constructor
  · intro h other hother
    obtain ⟨j, rfl⟩ := List.mem_iff_get.mp hother
    exact h j (List.mem_finRange j)
  · intro h j _
    exact h _ (List.get_mem batch j)

/-- Where no step waits, the next one is the first that none precedes. -/
theorem nextStep_first {batch : List Vertex}
    (hinputs : ∀ vertex ∈ batch, waitsForInput batch vertex = false) {next : Fin batch.length}
    (h : nextStep batch = some next) :
    (∀ other ∈ batch, ¬ Precedes other (batch.get next)) ∧
      ∀ earlier < next, ∃ other ∈ batch, Precedes other (batch.get earlier) := by
  have hready : readySteps batch = List.finRange batch.length := by
    unfold readySteps
    dsimp only
    have hall : (List.finRange batch.length).filter
        (fun index => !waitsForInput batch (batch.get index)) =
        List.finRange batch.length := by
      rw [List.filter_eq_self]
      intro index _
      rw [hinputs _ (List.get_mem batch index)]
      rfl
    rw [hall, ite_self]
  obtain ⟨first, hfirst⟩ :=
    exists_none_before (r := fun j i => Precedes (batch.get j) (batch.get i))
    Precedes.trans (fun i => precedes_irrefl _) (Fin.pos next)
  have hfound : ((List.finRange batch.length).find?
      (noneBefore batch (List.finRange batch.length))).isSome = true := by
    rw [List.find?_isSome]
    refine ⟨first, List.mem_finRange first, noneBefore_all.mpr ?_⟩
    intro other hother
    obtain ⟨j, rfl⟩ := List.mem_iff_get.mp hother
    exact hfirst j
  rw [nextStep_eq, hready] at h
  obtain ⟨found, hsome⟩ := Option.isSome_iff_exists.mp hfound
  rw [hsome, Option.some_or, Option.some_or, Option.some.injEq] at h
  subst h
  refine ⟨noneBefore_all.mp (List.find?_some hsome), ?_⟩
  intro earlier hlt
  obtain ⟨-, i, hi, hget, hbefore⟩ := List.find?_eq_some_iff_getElem.mp hsome
  rw [List.getElem_finRange] at hget
  have hlt' : earlier.val < i := by
    have hval := congrArg Fin.val hget
    simp only [Fin.val_cast] at hval
    omega
  have hnot : noneBefore batch (List.finRange batch.length) earlier = false := by
    simpa using hbefore earlier hlt'
  by_contra hall
  push Not at hall
  rw [noneBefore_all.mpr hall] at hnot
  cases hnot

theorem displayOrderFrom_picksFirst {fuel : ℕ} {batch ordered : List Vertex}
    (hfuel : batch.length ≤ fuel) (h : displayOrderFrom fuel batch = some ordered)
    (hinputs : ∀ vertex ∈ batch, ∀ other ∈ batch, other.digest ∉ vertex.inputs) :
    PicksFirst batch ordered := by
  induction fuel generalizing batch ordered with
  | zero =>
      rw [List.length_eq_zero_iff.mp (Nat.le_zero.mp hfuel)] at h ⊢
      cases h
      exact .nil
  | succ fuel ih =>
      by_cases hbatch : batch = []
      · subst hbatch
        cases h
        exact .nil
      · obtain ⟨next, rest, hnext, hrest, rfl⟩ := displayOrderFrom_eq_some hbatch h
        have hsub : batch.eraseIdx next ⊆ batch := List.eraseIdx_subset
        have hlater := ih (length_eraseIdx_le hfuel next) hrest
          (fun vertex hvertex other hother => hinputs vertex (hsub hvertex) other (hsub hother))
        obtain ⟨hnone, hfirst⟩ := nextStep_first
          (fun vertex hvertex => waitsForInput_eq_false.mpr (hinputs vertex hvertex)) hnext
        have hsplit : batch = batch.take next ++ batch.get next :: batch.drop (next + 1) := by
          rw [List.get_eq_getElem, List.getElem_cons_drop, List.take_append_drop]
        have hmem : ∀ other,
            other ∈ batch.take next ++ batch.get next :: batch.drop (next + 1) ↔ other ∈ batch := by
          intro other
          rw [← hsplit]
        rw [List.eraseIdx_eq_take_drop_succ] at hlater
        have hpicks : PicksFirst (batch.take next ++ batch.get next :: batch.drop (next + 1))
            (batch.get next :: rest) := by
          refine .cons ?_ ?_ hlater
          · intro other hother
            exact hnone other ((hmem other).mp hother)
          · intro earlier hearlier
            obtain ⟨index, hindex, rfl⟩ := List.mem_take_iff_getElem.mp hearlier
            have hlt : index < next := by omega
            obtain ⟨other, hother, hprecedes⟩ := hfirst ⟨index, by omega⟩ hlt
            exact ⟨other, (hmem other).mpr hother, hprecedes⟩
        rwa [← hsplit] at hpicks

/-- A batch is displayed without a panic, every step of it once.  Rules 2 to 4 are a strict partial
order.  Without a cycle of inputs every step comes after its inputs, and without inputs each
position has the first step that none of those left precedes, which extends the rules. -/
theorem display_order_correct (batch : List Vertex) :
    IsStrictOrder Vertex Precedes ∧ (∀ first second, ∃ b, displaysBefore first second = some b) ∧
      ∃ ordered, displayOrder batch = some ordered ∧ ordered.Perm batch ∧
        (Acyclic batch →
          ∀ i j : Fin ordered.length, (ordered.get j).digest ∈ (ordered.get i).inputs → j < i) ∧
        ((∀ vertex ∈ batch, ∀ other ∈ batch, other.digest ∉ vertex.inputs) →
          (ordered.Pairwise fun first later => ¬ Precedes later first) ∧
            PicksFirst batch ordered) := by
  obtain ⟨ordered, hordered, hperm⟩ := displayOrder_perm batch
  refine ⟨inferInstance, displaysBefore_total, ordered, hordered, hperm, ?_, ?_⟩
  · intro hacyclic i j hinput
    have hpairwise := displayOrderFrom_inputs le_rfl hordered hacyclic
    rcases lt_trichotomy j i with hlt | heq | hgt
    · exact hlt
    · subst heq
      have hmem := hperm.mem_iff.mp (List.get_mem ordered j)
      exact absurd (.single ⟨hmem, hmem, hinput⟩) (hacyclic (ordered.get j))
    · exact absurd hinput (List.pairwise_iff_get.mp hpairwise i j hgt)
  · intro hinputs
    have hpicks := displayOrderFrom_picksFirst le_rfl hordered hinputs
    exact ⟨hpicks.extends, hpicks⟩

/-- The second step of a stage, and then the first. -/
def stageBatch : List Vertex :=
  [⟨['b'], [], "[2/2] RUN make".toList, false, true, false, []⟩,
    ⟨['a'], [], "[1/2] FROM x".toList, false, true, false, []⟩]

theorem display_order_correct_stage :
    displayOrder stageBatch = some stageBatch.reverse ∧ PicksFirst stageBatch stageBatch.reverse ∧
      ∀ i j : Fin stageBatch.reverse.length,
        (stageBatch.reverse.get j).digest ∈ (stageBatch.reverse.get i).inputs → j < i := by
  obtain ⟨-, -, ordered, hordered, -, hinputs, hnone⟩ := display_order_correct stageBatch
  have hreverse : displayOrder stageBatch = some stageBatch.reverse := by decide +kernel
  have hno : ∀ vertex ∈ stageBatch, ∀ other ∈ stageBatch, other.digest ∉ vertex.inputs := by decide
  have hacyclic : Acyclic stageBatch := by
    intro vertex hcycle
    obtain ⟨input, -, hinput, hvertex, hdigest⟩ := Relation.TransGen.tail'_iff.mp hcycle
    exact hno vertex hvertex input hinput hdigest
  rw [hreverse] at hordered
  cases hordered
  exact ⟨hreverse, (hnone hno).2, hinputs hacyclic⟩

end Ratect.BuildOutput
