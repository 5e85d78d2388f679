import Ratect.FancyLogger
import Ratect.PostOrder

/-! # The order of the block's lines

`dependency_post_order` takes a container out of a map by name when it comes to it, and puts it
behind what it depends on.  Where no container depends on itself through others, what is out of the
map but has no place yet is what led to the container at hand, and none of that is come to again:
the order is a depth-first post-order from the task's container (`visit_walk`), with a container
that is not reached after it. -/

namespace Ratect.Ui.Fancy

open PostOrder (Edge Reaches Walk)

/-- The containers of the list that one of them depends on, in the order declared. -/
def dependenciesIn (containers : List TaskContainerInfo) (name : Str) : List Str :=
  match containers.find? (·.name = name) with
  | some info => info.dependencies.filter (· ∈ containers.map (·.name))
  | none => []

/-! ### By name -/

section byName

variable {containers : List TaskContainerInfo}

theorem eq_of_name (hnames : (containers.map (·.name)).Nodup) {a b : TaskContainerInfo}
    (ha : a ∈ containers) (hb : b ∈ containers) (hname : a.name = b.name) : a = b :=
  List.inj_on_of_nodup_map hnames ha hb hname

theorem find?_name (hnames : (containers.map (·.name)).Nodup) {info : TaskContainerInfo}
    (hinfo : info ∈ containers) : containers.find? (·.name = info.name) = some info := by
  cases hfound : containers.find? (·.name = info.name) with
  | none =>
      have := List.find?_eq_none.mp hfound info hinfo
      simp at this
  | some other =>
      have hname : other.name = info.name := by simpa using List.find?_some hfound
      rw [eq_of_name hnames (List.mem_of_find?_eq_some hfound) hinfo hname]

theorem mem_byName (hnames : (containers.map (·.name)).Nodup) {info : TaskContainerInfo} :
    info ∈ byName containers ↔ info ∈ containers := by
  have hreverse : (containers.reverse.map (·.name)).Nodup := by
    rw [List.map_reverse]
    exact List.nodup_reverse.mpr hnames
  unfold byName
  rw [List.mem_filterMap]
  constructor
  · rintro ⟨name, -, hfound⟩
    exact List.mem_reverse.mp (List.mem_of_find?_eq_some hfound)
  · intro hinfo
    refine ⟨info.name, ?_, find?_name hreverse (List.mem_reverse.mpr hinfo)⟩
    rw [List.mem_mergeSort, List.mem_dedup]
    exact List.mem_map_of_mem hinfo

/-- A map goes by name. -/
theorem byName_sorted (hnames : (containers.map (·.name)).Nodup) :
    (byName containers).map (·.name) =
      (containers.map (·.name)).mergeSort fun a b => decide (a ≤ b) := by
  have hreverse : (containers.reverse.map (·.name)).Nodup := by
    rw [List.map_reverse]
    exact List.nodup_reverse.mpr hnames
  unfold byName
  dsimp only
  rw [List.dedup_eq_self.mpr hnames, List.map_filterMap]
  have hself : ∀ name ∈ (containers.map (·.name)).mergeSort fun a b => decide (a ≤ b),
      (containers.reverse.find? (·.name = name)).map (·.name) = some name := by
    intro name hname
    rw [List.mem_mergeSort] at hname
    obtain ⟨info, hinfo, rfl⟩ := List.mem_map.mp hname
    rw [find?_name hreverse (List.mem_reverse.mpr hinfo)]
    rfl
  rw [List.filterMap_congr hself]
  exact List.filterMap_some

theorem byName_perm (hnames : (containers.map (·.name)).Nodup) :
    (byName containers).Perm containers := by
  have hsorted : ((byName containers).map (·.name)).Nodup := by
    rw [byName_sorted hnames]
    exact (List.mergeSort_perm _ _).nodup_iff.mpr hnames
  rw [List.perm_ext_iff_of_nodup hsorted.of_map hnames.of_map]
  exact fun info => mem_byName hnames

end byName

/-! ### The walk -/

section walk

variable {containers : List TaskContainerInfo}

/-- What is left in the map: neither under way nor done. -/
def leftOf (containers : List TaskContainerInfo) (under done : List Str) : List TaskContainerInfo :=
  (byName containers).filter fun info => info.name ∉ under ∧ info.name ∉ done

theorem leftOf_mono {under done done' : List Str} (h : done ⊆ done') :
    (leftOf containers under done').length ≤ (leftOf containers under done).length := by
  refine List.Sublist.length_le (List.monotone_filter_right _ fun info hinfo => ?_)
  simp only [decide_eq_true_eq] at hinfo ⊢
  exact ⟨hinfo.1, fun hdone => hinfo.2 (h hdone)⟩

/-- A container that is not in the map is not visited. -/
theorem visit_missing (fuel : ℕ) {name : Str}
    {state : List TaskContainerInfo × List TaskContainerInfo}
    (h : ∀ info ∈ state.1, info.name ≠ name) : visit fuel name state = state := by
  cases fuel with
  | zero => rfl
  | succ fuel =>
      obtain ⟨left, ordered⟩ := state
      have hfound : left.find? (·.name = name) = none :=
        List.find?_eq_none.mpr fun info hinfo => by simpa using h info hinfo
      rw [visit, hfound]

/-- A visit takes a walk to its container, if that is one of the list. -/
theorem visit_walk (hnames : (containers.map (·.name)).Nodup)
    (hacyclic : ∀ name, ¬ Relation.TransGen (Edge (dependenciesIn containers)) name name) (fuel : ℕ)
    (name : Str) (under : List Str) (ordered : List TaskContainerInfo)
    (hfuel : (leftOf containers under (ordered.map (·.name))).length < fuel)
    (hunder : ∀ other ∈ under, Relation.TransGen (Edge (dependenciesIn containers)) other name)
    (hlisted : ∀ info ∈ ordered, info ∈ containers) :
    ∃ ordered', visit fuel name (leftOf containers under (ordered.map (·.name)), ordered) =
        (leftOf containers under (ordered'.map (·.name)), ordered') ∧
          (∀ info ∈ ordered', info ∈ containers) ∧
      Walk (dependenciesIn containers) (ordered.map (·.name))
        ([name].filter (· ∈ containers.map (·.name)))
        (ordered'.map (·.name)) := by
  induction fuel generalizing name under ordered with
  | zero => exact absurd hfuel (Nat.not_lt_zero _)
  | succ fuel ih =>
      rw [visit]
      cases hfound : (leftOf containers under (ordered.map (·.name))).find? (·.name = name) with
      | none =>
          refine ⟨ordered, rfl, hlisted, ?_⟩
          by_cases hname : name ∈ containers.map (·.name)
          · obtain ⟨info, hinfo, rfl⟩ := List.mem_map.mp hname
            rw [List.filter_cons_of_pos (by simpa using hname)]
            refine .skip ?_ (.nil _)
            by_contra hnot
            have hleft : info ∈ leftOf containers under (ordered.map (·.name)) := by
              unfold leftOf
              rw [List.mem_filter, mem_byName hnames]
              exact ⟨hinfo, decide_eq_true ⟨fun h => hacyclic _ (hunder _ h), hnot⟩⟩
            have := List.find?_eq_none.mp hfound info hleft
            simp at this
          · rw [List.filter_cons_of_neg (by simpa using hname)]
            exact .nil _
      | some info =>
          have hname : info.name = name := by simpa using List.find?_some hfound
          subst hname
          have hleft := List.mem_of_find?_eq_some hfound
          obtain ⟨hinfo, hfree⟩ := List.mem_filter.mp hleft
          rw [mem_byName hnames] at hinfo
          obtain ⟨hnotUnder, hnotDone⟩ := of_decide_eq_true hfree
          have hsucc : dependenciesIn containers info.name =
              info.dependencies.filter (· ∈ containers.map (·.name)) := by
            unfold dependenciesIn
            rw [find?_name hnames hinfo]
          have htaken : (leftOf containers under (ordered.map (·.name))).filter
              (·.name ≠ info.name) =
              leftOf containers (info.name :: under) (ordered.map (·.name)) := by
            unfold leftOf
            rw [List.filter_filter]
            refine List.filter_congr fun other _ => ?_
            simp only [List.mem_cons, not_or, ne_eq, ← Bool.decide_and]
            rw [decide_eq_decide]
            tauto
          have hfewer : (leftOf containers (info.name :: under) (ordered.map (·.name))).length <
              fuel := by
            rw [← htaken]
            have hlt : ((leftOf containers under (ordered.map (·.name))).filter
                (·.name ≠ info.name)).length <
                (leftOf containers under (ordered.map (·.name))).length :=
              List.length_filter_lt_length_iff_exists.mpr ⟨info, hleft, by simp⟩
            omega
          -- the container's own dependencies, with it under way
          have hinner : ∀ (dependencies : List Str) (ordered₁ : List TaskContainerInfo),
              dependencies ⊆ info.dependencies → (∀ i ∈ ordered₁, i ∈ containers) →
              (leftOf containers (info.name :: under) (ordered₁.map (·.name))).length < fuel →
              ∃ ordered₂, dependencies.foldl (fun state dependency => visit fuel dependency state)
                  (leftOf containers (info.name :: under) (ordered₁.map (·.name)), ordered₁) =
                  (leftOf containers (info.name :: under) (ordered₂.map (·.name)), ordered₂) ∧
                (∀ i ∈ ordered₂, i ∈ containers) ∧
                Walk (dependenciesIn containers) (ordered₁.map (·.name))
                  (dependencies.filter (· ∈ containers.map (·.name))) (ordered₂.map (·.name)) := by
            intro dependencies
            induction dependencies with
            | nil => exact fun ordered₁ _ hlisted₁ _ => ⟨ordered₁, rfl, hlisted₁, .nil _⟩
            | cons dependency dependencies ihdependencies =>
                intro ordered₁ hsub hlisted₁ hfuel₁
                obtain ⟨hdependency, hsub⟩ := List.cons_subset.mp hsub
                rw [List.foldl_cons]
                by_cases hin : dependency ∈ containers.map (·.name)
                · have hedge : Edge (dependenciesIn containers) info.name dependency := by
                    unfold Edge
                    rw [hsucc]
                    exact List.mem_filter.mpr ⟨hdependency, decide_eq_true hin⟩
                  have hunder' : ∀ other ∈ info.name :: under,
                      Relation.TransGen (Edge (dependenciesIn containers)) other dependency := by
                    intro other hother
                    rcases List.mem_cons.mp hother with rfl | hother
                    · exact .single hedge
                    · exact (hunder other hother).tail hedge
                  obtain ⟨ordered₂, hvisited, hlisted₂, hfirst⟩ :=
                    ih dependency (info.name :: under) ordered₁ hfuel₁ hunder' hlisted₁
                  have hfuel₂ : (leftOf containers (info.name :: under)
                      (ordered₂.map (·.name))).length < fuel :=
                    (leftOf_mono fun _ => hfirst.mono).trans_lt hfuel₁
                  obtain ⟨ordered₃, hrested, hlisted₃, hrest⟩ :=
                    ihdependencies ordered₂ hsub hlisted₂ hfuel₂
                  rw [hvisited]
                  refine ⟨ordered₃, hrested, hlisted₃, ?_⟩
                  have hcons : (dependency :: dependencies).filter (· ∈ containers.map (·.name)) =
                      [dependency].filter (· ∈ containers.map (·.name)) ++
                        dependencies.filter (· ∈ containers.map (·.name)) :=
                          List.filter_append [dependency] dependencies
                  rw [hcons]
                  exact hfirst.append hrest
                · have hmissing : ∀ other ∈
                    leftOf containers (info.name :: under) (ordered₁.map (·.name)),
                      other.name ≠ dependency := by
                    rintro other hother rfl
                    exact hin (List.mem_map_of_mem
                      ((mem_byName hnames).mp (List.mem_filter.mp hother).1))
                  rw [visit_missing fuel hmissing, List.filter_cons_of_neg (by simpa using hin)]
                  exact ihdependencies ordered₁ hsub hlisted₁ hfuel₁
          obtain ⟨mid, hvisited, hlistedMid, hwalk⟩ :=
            hinner info.dependencies ordered (List.Subset.refl _) hlisted hfewer
          dsimp only
          rw [htaken, hvisited]
          rw [← hsucc] at hwalk
          have hnotMid : info.name ∉ mid.map (·.name) := by
            intro hmem
            obtain ⟨new, hmid, hnew⟩ := hwalk.exists_new
            rw [hmid] at hmem
            rcases List.mem_append.mp hmem with hmem | hmem
            · exact hnotDone hmem
            · obtain ⟨dependency, hdependency, hreaches⟩ := hnew _ hmem
              exact hacyclic info.name (Relation.TransGen.head' hdependency hreaches)
          have hnames' : (mid ++ [info]).map (·.name) = mid.map (·.name) ++ [info.name] :=
            List.map_append
          refine ⟨mid ++ [info], ?_, ?_, ?_⟩
          · rw [hnames']
            congr 1
            unfold leftOf
            refine List.filter_congr fun other _ => ?_
            simp only [List.mem_cons, List.mem_append, List.not_mem_nil, or_false, decide_eq_decide]
            tauto
          · intro other hother
            rcases List.mem_append.mp hother with hother | hother
            · exact hlistedMid other hother
            · rw [List.mem_singleton.mp hother]
              exact hinfo
          · rw [hnames', List.filter_cons_of_pos (by simpa using List.mem_map_of_mem hinfo)]
            exact .visit hnotDone hnotMid hwalk (.nil _)

/-- The lines are the containers, each once.  First come those that the task's container leads to,
in depth-first post-order, and then the others by name. -/
theorem dependency_post_order_exact (containers : List TaskContainerInfo)
    (hnames : (containers.map (·.name)).Nodup)
    (hacyclic : ∀ name, ¬ Relation.TransGen (Edge (dependenciesIn containers)) name name)
    {root : TaskContainerInfo} (hroot : containers.find? (·.isTaskContainer) = some root) :
    (dependencyPostOrder containers).Perm containers ∧ ∃ reached others,
      dependencyPostOrder containers = reached ++ others ∧
      Walk (dependenciesIn containers) [] [root.name] (reached.map (·.name)) ∧
      (∀ info ∈ containers, info ∈ others ↔
        ¬ Reaches (dependenciesIn containers) root.name info.name) ∧
      (others.map (·.name)).Pairwise (· ≤ ·) := by
  have hmem : root ∈ containers := List.mem_of_find?_eq_some hroot
  have hall : leftOf containers [] [] = byName containers := by
    unfold leftOf
    exact List.filter_eq_self.mpr fun _ _ => decide_eq_true ⟨List.not_mem_nil, List.not_mem_nil⟩
  have hfuel : (leftOf containers [] []).length < containers.length + 1 := by
    rw [hall, (byName_perm hnames).length_eq]
    exact Nat.lt_succ_self _
  obtain ⟨reached, hvisited, hlisted, hwalk⟩ :=
    visit_walk hnames hacyclic (containers.length + 1) root.name [] [] hfuel (by simp) (by simp)
  rw [List.filter_cons_of_pos (by simpa using List.mem_map_of_mem hmem), List.filter_nil] at hwalk
  let others := leftOf containers [] (reached.map (·.name))
  have horder : dependencyPostOrder containers = reached ++ others := by
    unfold dependencyPostOrder
    rw [hroot, ← hall]
    dsimp only
    rw [show visit (containers.length + 1) root.name
      (leftOf containers [] [], []) = _ from hvisited]
  have hothers : ∀ info, info ∈ others ↔ info ∈ containers ∧ info.name ∉ reached.map (·.name) := by
    intro info
    unfold others leftOf
    rw [List.mem_filter, mem_byName hnames, decide_eq_true_eq]
    exact and_congr_right' ⟨fun h => h.2, fun h => ⟨List.not_mem_nil, h⟩⟩
  refine ⟨?_, reached, others, horder, hwalk, fun info hinfo => ?_, ?_⟩
  · have hsorted : ((byName containers).map (·.name)).Nodup :=
      ((byName_perm hnames).map _).nodup_iff.mpr hnames
    have hreached : reached.Nodup := (hwalk.nodup List.nodup_nil).of_map
    have hdisjoint : reached.Disjoint others := fun info hinfo hother =>
      ((hothers info).mp hother).2 (List.mem_map_of_mem hinfo)
    have hleft : others.Nodup := hsorted.of_map.filter _
    rw [horder, List.perm_ext_iff_of_nodup (hreached.append hleft hdisjoint) hnames.of_map]
    intro info
    rw [List.mem_append, hothers]
    constructor
    · rintro (hinfo | hinfo)
      · exact hlisted info hinfo
      · exact hinfo.1
    · intro hinfo
      by_cases hdone : info.name ∈ reached.map (·.name)
      · obtain ⟨other, hother, hname⟩ := List.mem_map.mp hdone
        rw [← eq_of_name hnames (hlisted other hother) hinfo hname]
        exact Or.inl hother
      · exact Or.inr ⟨hinfo, hdone⟩
  · rw [hothers info, and_iff_right hinfo, hwalk.mem_iff .nil]
    simp
  · have hmap : (others.map (·.name)).Sublist
        ((containers.map (·.name)).mergeSort fun a b => decide (a ≤ b)) := by
      rw [← byName_sorted hnames]
      exact List.filter_sublist.map _
    refine List.Pairwise.sublist hmap ?_
    have htrans : ∀ a b c : Str, decide (a ≤ b) = true → decide (b ≤ c) = true →
        decide (a ≤ c) = true :=
      fun a b c hab hbc => decide_eq_true (le_trans (of_decide_eq_true hab) (of_decide_eq_true hbc))
    have htotal : ∀ a b : Str, (decide (a ≤ b) || decide (b ≤ a)) = true :=
      fun a b => by simpa using le_total a b
    exact (List.pairwise_mergeSort htrans htotal _).imp fun h => of_decide_eq_true h

/-- An application and its database, and a container that nothing needs. -/
def shopContainers : List TaskContainerInfo :=
  [⟨"app".toList, none, some "shop-app".toList, ["database".toList], false, true⟩,
    ⟨"audit".toList, some "alpine".toList, none, [], false, false⟩,
    ⟨"database".toList, some "postgres".toList, none, [], true, false⟩]

theorem edge_shop {a b : Str} (h : Edge (dependenciesIn shopContainers) a b) :
    a = "app".toList ∧ b = "database".toList := by
  have happ : dependenciesIn shopContainers "app".toList = ["database".toList] := by decide +kernel
  unfold Edge at h
  by_cases ha : a = "app".toList
  · rw [ha, happ] at h
    exact ⟨ha, List.mem_singleton.mp h⟩
  · unfold dependenciesIn at h
    split at h
    · next info hfound =>
        have hname : info.name = a := by simpa using List.find?_some hfound
        have hnone : ∀ info ∈ shopContainers,
            info.name ≠ "app".toList → info.dependencies = [] := by decide +kernel
        rw [hnone info (List.mem_of_find?_eq_some hfound) (hname ▸ ha)] at h
        cases h
    · cases h

theorem dependency_post_order_exact_shop :
    (dependencyPostOrder shopContainers).Perm shopContainers ∧ ∃ reached others,
      dependencyPostOrder shopContainers = reached ++ others ∧
      Walk (dependenciesIn shopContainers) [] ["app".toList] (reached.map (·.name)) ∧
      (∀ info ∈ shopContainers, info ∈ others ↔
        ¬ Reaches (dependenciesIn shopContainers) "app".toList info.name) ∧
      (others.map (·.name)).Pairwise (· ≤ ·) := by
  refine dependency_post_order_exact shopContainers (by decide +kernel) (fun name hcycle => ?_) rfl
  obtain ⟨next, hfirst, -⟩ := Relation.TransGen.head'_iff.mp hcycle
  obtain ⟨before, -, hlast⟩ := Relation.TransGen.tail'_iff.mp hcycle
  rw [(edge_shop hfirst).1] at hlast
  exact absurd (edge_shop hlast).2 (by decide)

end walk

end Ratect.Ui.Fancy
