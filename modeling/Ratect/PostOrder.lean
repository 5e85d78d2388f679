import Mathlib

/-! # Depth-first post-order

A depth-first walk over a successor function `succ : α → List α`, as a relation: from the
nodes `done` already finished, the walk takes the nodes of a list in order, skips a finished
one, and otherwise finishes its successors first and then the node itself.

`Walk succ done todo done'` says that the walk takes `todo` from `done` to `done'`.  A finished
walk is a topological order (`Walk.ordered`) without repetition (`Walk.nodup`) of what was
finished before and exactly what `todo` reaches (`Walk.mem_iff`); every entry of a node's own
list is reached in turn, and is finished next unless it already is (`Walk.entry`).

`Sound ok succ` is the other half: the nodes from which every reachable node satisfies `ok` and
no cycle can be reached are those all of whose successors are of that kind.

`reach` is the walk that only collects: with enough fuel it returns what is reached in one step or
more (`mem_reach`).  Where nothing reaches itself, a list that is not empty has an element that no
other of the list reaches (`exists_unreached`). -/

namespace PostOrder

variable {α : Type}

/-- `b` is a successor of `a`. -/
def Edge (succ : α → List α) (a b : α) : Prop := b ∈ succ a

/-- `b` is reached from `a` along successors (`a` itself included). -/
def Reaches (succ : α → List α) : α → α → Prop := Relation.ReflTransGen (Edge succ)

/-- The walk over a list, from the finished nodes `done` to the finished nodes `done'`. -/
inductive Walk (succ : α → List α) : List α → List α → List α → Prop
  | nil (done : List α) : Walk succ done [] done
  | skip {done done' todo : List α} {a : α} :
      a ∈ done → Walk succ done todo done' → Walk succ done (a :: todo) done'
  | visit {done mid done' todo : List α} {a : α} :
      a ∉ done → a ∉ mid → Walk succ done (succ a) mid → Walk succ (mid ++ [a]) todo done' →
      Walk succ done (a :: todo) done'

/-- Every node comes after all its successors. -/
def Ordered (succ : α → List α) (done : List α) : Prop :=
  ∀ l a r, done = l ++ a :: r → ∀ b ∈ succ a, b ∈ l

variable {succ : α → List α}

/-! ### What a walk finishes -/

theorem Walk.prefix_of {done todo done' : List α}
    (h : Walk succ done todo done') : done <+: done' := by
  induction h with
  | nil done => exact List.prefix_rfl
  | skip _ _ ih => exact ih
  | visit _ _ _ _ ih₁ ih₂ => exact ih₁.trans ((List.prefix_append _ _).trans ih₂)

theorem Walk.mono {done todo done' : List α} (h : Walk succ done todo done') {x : α}
    (hx : x ∈ done) : x ∈ done' := h.prefix_of.subset hx

theorem Walk.mem_of_todo {done todo done' : List α} (h : Walk succ done todo done') :
    ∀ a ∈ todo, a ∈ done' := by
  induction h with
  | nil done => simp
  | skip ha hw ih =>
      intro b hb
      rcases List.mem_cons.mp hb with rfl | hb
      · exact hw.mono ha
      · exact ih b hb
  | visit _ _ _ hw _ ih₂ =>
      intro b hb
      rcases List.mem_cons.mp hb with rfl | hb
      · exact hw.mono (by simp)
      · exact ih₂ b hb

theorem Walk.append {done mid done' l r : List α} (h₁ : Walk succ done l mid)
    (h₂ : Walk succ mid r done') : Walk succ done (l ++ r) done' := by
  induction h₁ with
  | nil done => exact h₂
  | skip ha _ ih => exact .skip ha (ih h₂)
  | visit ha hm hw _ _ ih₂ => exact .visit ha hm hw (ih₂ h₂)

theorem Walk.nodup {done todo done' : List α} (h : Walk succ done todo done')
    (hd : done.Nodup) : done'.Nodup := by
  induction h with
  | nil done => exact hd
  | skip _ _ ih => exact ih hd
  | visit _ hm _ _ ih₁ ih₂ =>
      apply ih₂
      rw [List.nodup_append]
      refine ⟨ih₁ hd, List.nodup_singleton _, ?_⟩
      intro x hx y hy
      rw [List.mem_singleton.mp hy]
      rintro rfl
      exact hm hx

theorem Ordered.append_singleton {done : List α} (h : Ordered succ done) {a : α}
    (ha : ∀ b ∈ succ a, b ∈ done) : Ordered succ (done ++ [a]) := by
  intro l x r he b hb
  rcases List.eq_nil_or_concat r with rfl | ⟨r', y, rfl⟩
  · obtain ⟨rfl, hx⟩ := List.append_inj' he rfl
    obtain rfl := List.cons.inj hx |>.1
    exact ha b hb
  · have hsplit : done ++ [a] = (l ++ x :: r') ++ [y] := by simpa using he
    obtain ⟨rfl, _⟩ := List.append_inj' hsplit rfl
    exact h l x r' rfl b hb

theorem Ordered.nil : Ordered succ ([] : List α) := by
  intro l a r h
  simp at h

/-- A walk keeps successors first. -/
theorem Walk.ordered {done todo done' : List α} (h : Walk succ done todo done')
    (hd : Ordered succ done) : Ordered succ done' := by
  induction h with
  | nil done => exact hd
  | skip _ _ ih => exact ih hd
  | visit _ _ hw _ ih₁ ih₂ => exact ih₂ ((ih₁ hd).append_singleton hw.mem_of_todo)

/-- Whatever an ordered list holds, it holds everything reached from it. -/
theorem Ordered.mem_of_reaches {done : List α} (h : Ordered succ done) {a b : α} (ha : a ∈ done)
    (hr : Reaches succ a b) : b ∈ done := by
  induction hr with
  | refl => exact ha
  | tail _ he ih =>
      obtain ⟨l, r, rfl⟩ := List.append_of_mem ih
      exact List.mem_append_left _ (h l _ r rfl _ he)

/-- What a walk adds is reached from its list. -/
theorem Walk.exists_new {done todo done' : List α} (h : Walk succ done todo done') :
    ∃ new, done' = done ++ new ∧ ∀ x ∈ new, ∃ a ∈ todo, Reaches succ a x := by
  induction h with
  | nil done => exact ⟨[], by simp, by simp⟩
  | skip _ _ ih =>
      obtain ⟨new, rfl, hnew⟩ := ih
      refine ⟨new, rfl, fun x hx => ?_⟩
      obtain ⟨a, ha, hr⟩ := hnew x hx
      exact ⟨a, List.mem_cons_of_mem _ ha, hr⟩
  | @visit done mid done' todo a _ _ _ _ ih₁ ih₂ =>
      obtain ⟨new₁, rfl, hnew₁⟩ := ih₁
      obtain ⟨new₂, rfl, hnew₂⟩ := ih₂
      refine ⟨new₁ ++ [a] ++ new₂, by simp, fun x hx => ?_⟩
      simp only [List.mem_append, List.mem_singleton] at hx
      rcases hx with (hx | rfl) | hx
      · obtain ⟨c, hc, hr⟩ := hnew₁ x hx
        exact ⟨a, List.mem_cons_self, Relation.ReflTransGen.head hc hr⟩
      · exact ⟨x, List.mem_cons_self, Relation.ReflTransGen.refl⟩
      · obtain ⟨c, hc, hr⟩ := hnew₂ x hx
        exact ⟨c, List.mem_cons_of_mem _ hc, hr⟩

/-- A walk from an ordered list finishes exactly what was finished and what is reached. -/
theorem Walk.mem_iff {done todo done' : List α} (h : Walk succ done todo done')
    (hd : Ordered succ done) (x : α) :
    x ∈ done' ↔ x ∈ done ∨ ∃ a ∈ todo, Reaches succ a x := by
  constructor
  · intro hx
    obtain ⟨new, rfl, hnew⟩ := h.exists_new
    rcases List.mem_append.mp hx with hx | hx
    · exact .inl hx
    · exact .inr (hnew x hx)
  · rintro (hx | ⟨a, ha, hr⟩)
    · exact h.mono hx
    · exact (h.ordered hd).mem_of_reaches (h.mem_of_todo a ha) hr

/-! ### The order of one list's entries -/

/-- The walk's record of taking the entries `todo` in turn, from `done` to `done'`: when it comes
to an entry, every earlier entry is finished; the entry is finished already, or it is the next
one finished, with only nodes it reaches before it. -/
def InTurn (succ : α → List α) : List α → List α → List α → Prop
  | done, [], done' => done' = done
  | done, a :: todo, done' =>
      (a ∈ done ∧ InTurn succ done todo done') ∨
      (a ∉ done ∧ ∃ before, (∀ x ∈ before, Reaches succ a x) ∧
        InTurn succ (done ++ before ++ [a]) todo done')

theorem Walk.inTurn {done todo done' : List α} (h : Walk succ done todo done') :
    InTurn succ done todo done' := by
  induction h with
  | nil done => rfl
  | skip ha _ ih => exact .inl ⟨ha, ih⟩
  | @visit done mid done' todo a ha _ hw _ _ ih₂ =>
      obtain ⟨before, rfl, hbefore⟩ := hw.exists_new
      refine .inr ⟨ha, before, fun x hx => ?_, ih₂⟩
      obtain ⟨c, hc, hr⟩ := hbefore x hx
      exact Relation.ReflTransGen.head hc hr

/-- Right before a node is finished, the walk has taken the node's own list. -/
theorem Walk.entry {done todo done' : List α} (h : Walk succ done todo done') :
    ∀ l a r, done' = l ++ a :: r → done.length ≤ l.length → ∃ start,
      Walk succ start (succ a) l := by
  induction h with
  | nil done =>
      intro l a r he hl
      have := congrArg List.length he
      simp only [List.length_append, List.length_cons] at this
      omega
  | skip _ _ ih => exact ih
  | @visit done mid done' todo c _ _ hw hw' ih₁ ih₂ =>
      intro l a r he hl
      obtain ⟨new, rfl⟩ := hw'.prefix_of
      rcases lt_trichotomy l.length mid.length with hlt | heq | hgt
      · -- finished while the successors of `c` were walked
        have hmid : mid = l ++ a :: (mid.drop (l.length + 1)) := by
          have h1 : l = mid.take l.length := by
            have := congrArg (List.take l.length) he
            rw [List.append_assoc, List.take_append_of_le_length (by omega)] at this
            rw [this, List.take_left]
          have h2 : mid[l.length]? = some a := by
            have := congrArg (fun m : List α => m[l.length]?) he
            simp only [List.append_assoc] at this
            rw [List.getElem?_append_left hlt] at this
            rw [this]
            simp
          have h3 := List.take_append_drop l.length mid
          rw [List.drop_eq_getElem_cons hlt] at h3
          rw [List.getElem?_eq_getElem hlt, Option.some.injEq] at h2
          rw [h2, ← h1] at h3
          exact h3.symm
        exact ih₁ l a _ hmid hl
      · have hsplit : mid ++ ([c] ++ new) = l ++ (a :: r) := by simpa using he
        obtain ⟨rfl, hrest⟩ := List.append_inj hsplit heq.symm
        obtain rfl := (List.cons.inj hrest).1
        exact ⟨done, hw⟩
      · exact ih₂ l a r he (by simp only [List.length_append, List.length_singleton]; omega)

/-- A walk over one node finishes it last. -/
theorem Walk.getLast?_eq {a : α} {done : List α} (h : Walk succ [] [a] done) :
    done.getLast? = some a := by
  cases h with
  | skip hmem _ => simp at hmem
  | visit _ _ _ hnil =>
      cases hnil with
      | nil => exact List.getLast?_concat

/-! ### Nodes without problems -/

/-- Everything reached from `a` satisfies `ok`, and no cycle can be reached from it. -/
def Sound (ok : α → Prop) (succ : α → List α) (a : α) : Prop :=
  (∀ b, Reaches succ a b → ok b) ∧
    ∀ b, Reaches succ a b → ¬ Relation.TransGen (Edge succ) b b

theorem Sound.of_edge {ok : α → Prop} {a b : α} (h : Sound ok succ a) (hb : b ∈ succ a) :
    Sound ok succ b :=
  ⟨fun c hc => h.1 c (Relation.ReflTransGen.head hb hc),
    fun c hc => h.2 c (Relation.ReflTransGen.head hb hc)⟩

theorem Sound.ok {ok : α → Prop} {a : α} (h : Sound ok succ a) : ok a :=
  h.1 a Relation.ReflTransGen.refl

/-- A node is sound exactly when it satisfies `ok` and its successors are sound. -/
theorem sound_iff {ok : α → Prop} {a : α} :
    Sound ok succ a ↔ ok a ∧ ∀ b ∈ succ a, Sound ok succ b := by
  refine ⟨fun h => ⟨h.ok, fun b hb => h.of_edge hb⟩, ?_⟩
  rintro ⟨ha, hs⟩
  constructor
  · intro b hb
    rcases Relation.ReflTransGen.cases_head hb with rfl | ⟨c, hc, hr⟩
    · exact ha
    · exact (hs c hc).1 b hr
  · intro b hb hcycle
    rcases Relation.ReflTransGen.cases_head hb with rfl | ⟨c, hc, hr⟩
    · -- a cycle through `a` is also a cycle through the successor it leaves by
      obtain ⟨c, hc, hr⟩ := Relation.TransGen.head'_iff.mp hcycle
      exact (hs c hc).2 c Relation.ReflTransGen.refl
        (Relation.TransGen.tail' hr hc)
    · exact (hs c hc).2 b hr hcycle

/-! ### What a walk with a seen set collects -/

section reach

variable [DecidableEq α]

/-- The nodes seen after a walk from `a`: each successor not seen yet is seen, then walked from. -/
def reach (succ : α → List α) : ℕ → α → List α → List α
  | 0, _, seen => seen
  | fuel + 1, a, seen => (succ a).foldl
      (fun seen b => if b ∈ seen then seen else reach succ fuel b (seen ++ [b])) seen

/-- `seen'` has `seen`, and all successors of what it adds. -/
def Grown (succ : α → List α) (seen seen' : List α) : Prop :=
  seen ⊆ seen' ∧ ∀ a ∈ seen', a ∉ seen → succ a ⊆ seen'

theorem Grown.trans {l₁ l₂ l₃ : List α} (h : Grown succ l₁ l₂) (h' : Grown succ l₂ l₃) :
    Grown succ l₁ l₃ := by
  refine ⟨List.Subset.trans h.1 h'.1, fun a ha hnot => ?_⟩
  by_cases hmid : a ∈ l₂
  · exact List.Subset.trans (h.2 a hmid hnot) h'.1
  · exact h'.2 a ha hmid

/-- The walk over a list of nodes grows what is seen to have them all, if each single walk does. -/
theorem foldl_grown {visit : α → List α → List α} {base : List α} {nodes : Finset α}
    (hvisit : ∀ b seen, base ⊆ seen → b ∈ nodes → b ∉ seen →
      Grown succ (seen ++ [b]) (visit b (seen ++ [b])) ∧ succ b ⊆ visit b (seen ++ [b]))
    (todo seen : List α) (hseen : base ⊆ seen) (htodo : ∀ b ∈ todo, b ∈ nodes) :
    Grown succ seen (todo.foldl
      (fun seen b => if b ∈ seen then seen else visit b (seen ++ [b])) seen) ∧
      todo ⊆ todo.foldl (fun seen b => if b ∈ seen then seen else visit b (seen ++ [b])) seen := by
  induction todo generalizing seen with
  | nil => exact ⟨⟨fun _ h => h, fun a ha hnot => absurd ha hnot⟩, List.nil_subset _⟩
  | cons b todo ih =>
      rw [List.foldl_cons]
      have htodo' : ∀ c ∈ todo, c ∈ nodes := fun c hc => htodo c (List.mem_cons_of_mem _ hc)
      split_ifs with hb
      · obtain ⟨hgrown, hsub⟩ := ih seen hseen htodo'
        exact ⟨hgrown, List.cons_subset.mpr ⟨hgrown.1 hb, hsub⟩⟩
      · obtain ⟨hone, hsucc⟩ := hvisit b seen hseen (htodo b List.mem_cons_self) hb
        have hfirst : Grown succ seen (visit b (seen ++ [b])) := by
          refine ⟨List.Subset.trans (List.subset_append_left _ _) hone.1, fun a ha hnot => ?_⟩
          by_cases hab : a = b
          · rw [hab]
            exact hsucc
          · exact hone.2 a ha (by simp [hnot, hab])
        obtain ⟨hgrown, hsub⟩ := ih _ (List.Subset.trans hseen hfirst.1) htodo'
        refine ⟨hfirst.trans hgrown, List.cons_subset.mpr ⟨hgrown.1 (hone.1 ?_), hsub⟩⟩
        exact List.mem_append_right _ List.mem_cons_self

/-- With more fuel than there are nodes left to see, a walk sees all it comes to. -/
theorem reach_grown {nodes : Finset α} (hnodes : ∀ a, ∀ b ∈ succ a, b ∈ nodes) (fuel : ℕ) (a : α)
    (seen : List α) (hfuel : (nodes \ seen.toFinset).card < fuel) :
    Grown succ seen (reach succ fuel a seen) ∧ succ a ⊆ reach succ fuel a seen := by
  induction fuel generalizing a seen with
  | zero => omega
  | succ fuel ih =>
      refine foldl_grown (fun b seen' hsub hb hnot => ih b (seen' ++ [b]) ?_) (succ a) seen
        (fun _ h => h) (hnodes a)
      -- a walk inside starts with one node less to see
      have hmem : b ∈ nodes \ seen.toFinset := by
        simp only [Finset.mem_sdiff, List.mem_toFinset]
        exact ⟨hb, fun h => hnot (hsub h)⟩
      have hlt : (nodes \ (seen' ++ [b]).toFinset).card < (nodes \ seen.toFinset).card := by
        apply Finset.card_lt_card
        rw [Finset.ssubset_iff_of_subset]
        · exact ⟨b, hmem, by simp⟩
        · intro c hc
          simp only [Finset.mem_sdiff, List.mem_toFinset, List.mem_append, not_or] at hc ⊢
          exact ⟨hc.1, fun h => hc.2.1 (hsub h)⟩
      omega

theorem reach_sound (fuel : ℕ) (a : α) (seen : List α) {x : α} (h : x ∈ reach succ fuel a seen) :
    x ∈ seen ∨ Relation.TransGen (Edge succ) a x := by
  induction fuel generalizing a seen with
  | zero => exact .inl h
  | succ fuel ih =>
      unfold reach at h
      have hfold : ∀ todo seen, todo ⊆ succ a → x ∈ todo.foldl (fun seen b =>
          if b ∈ seen then seen else reach succ fuel b (seen ++ [b])) seen →
          x ∈ seen ∨ Relation.TransGen (Edge succ) a x := by
        intro todo
        induction todo with
        | nil => exact fun seen _ hx => .inl hx
        | cons b todo ihtodo =>
            intro seen hsub hx
            obtain ⟨hb, hsub'⟩ := List.cons_subset.mp hsub
            rw [List.foldl_cons] at hx
            rcases ihtodo _ hsub' hx with hx | hx
            · split_ifs at hx with hseen
              · exact .inl hx
              · rcases ih b (seen ++ [b]) hx with hx | hx
                · rcases List.mem_append.mp hx with hx | hx
                  · exact .inl hx
                  · rw [List.mem_singleton.mp hx]
                    exact .inr (.single hb)
                · exact .inr (.head hb hx)
            · exact .inr hx
      exact hfold (succ a) seen (fun _ h => h) h

/-- The walk collects what is reached in one step or more. -/
theorem mem_reach {nodes : Finset α} (hnodes : ∀ a, ∀ b ∈ succ a, b ∈ nodes) {fuel : ℕ}
    (hfuel : nodes.card < fuel) (a x : α) :
    x ∈ reach succ fuel a [] ↔ Relation.TransGen (Edge succ) a x := by
  constructor
  · intro h
    rcases reach_sound fuel a [] h with h | h
    · cases h
    · exact h
  · intro h
    obtain ⟨hgrown, hsub⟩ := reach_grown hnodes fuel a [] (by simpa using hfuel)
    induction h with
    | single hx => exact hsub hx
    | tail _ hx ih => exact hgrown.2 _ ih (by simp) hx

end reach

/-- Without cycles, some element of a list is reached by none of the list. -/
theorem exists_unreached (hacyclic : ∀ a, ¬ Relation.TransGen (Edge succ) a a) {l : List α}
    (hl : l ≠ []) : ∃ a ∈ l, ∀ b ∈ l, ¬ Relation.TransGen (Edge succ) b a := by
  obtain ⟨a, ha⟩ := List.exists_mem_of_ne_nil l hl
  have hfinite : Finite { x // x ∈ l } := List.finite_toSet l
  let below : { x // x ∈ l } → { x // x ∈ l } → Prop := fun x y => Relation.TransGen (Edge succ) x y
  have htrans : IsTrans _ below := ⟨fun _ _ _ h h' => Relation.TransGen.trans h h'⟩
  have hirrefl : Std.Irrefl below := ⟨fun x h => hacyclic x h⟩
  have hwf : WellFounded below := Finite.wellFounded_of_trans_of_irrefl below
  obtain ⟨m, _, hmin⟩ := hwf.has_min Set.univ ⟨⟨a, ha⟩, trivial⟩
  exact ⟨m, m.2, fun b hb h => hmin ⟨b, hb⟩ trivial h⟩

end PostOrder
