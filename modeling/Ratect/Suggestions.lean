import Ratect.EditDistance
import Ratect.Tasks

/-! # Suggestions for a mistyped task name

`edit_distance` (`engine.rs`) fills a table row by row and keeps two rows of it, which it swaps
after each one; what the row to be filled still holds is from two rows before.  Each finished row
gives the distances of one prefix of `a` from every prefix of `b` (`RowOf`), so the last entry is
the distance (`editDistanceOverRows_eq`).  That is what the table says whose rows are lists of their
own (`editDistance`).  The suggestions are the names within distance three, sorted by distance and
name. -/

namespace Ratect

open EditDistance (levenshtein Edits)

/-! ### The two rows -/

/-- The row that gives the distances of `prefixOfA` from the prefixes of `b`, up to the one of
length `n`. -/
structure RowOf (prefixOfA b : Text) (n : ℕ) (row : List ℕ) : Prop where
  length : row.length = b.length + 1
  entry : ∀ j ≤ n, row.getD j 0 = levenshtein prefixOfA (b.take j)

section rows

variable {a b : Text} {i j : ℕ} {row : List ℕ}

/-- The first row. -/
theorem rowOf_range (b : Text) : RowOf [] b b.length (List.range (b.length + 1)) where
  length := List.length_range
  entry j hj := by
    rw [EditDistance.levenshtein_nil_left, List.length_take,
      List.getD_eq_getElem _ _ (by rw [List.length_range]; omega), List.getElem_range]
    omega

/-- A row that was finished has the length that the next one needs, whatever it holds. -/
theorem rowOf_set_zero {old : List ℕ} (hlength : old.length = b.length + 1) (hi : i ≤ a.length) :
    RowOf (a.take i) b 0 (old.set 0 i) where
  length := by rw [List.length_set, hlength]
  entry j hj := by
    obtain rfl := Nat.le_zero.mp hj
    rw [List.take_zero, EditDistance.levenshtein_nil_right, List.length_take,
      List.getD_eq_getElem _ _ (by rw [List.length_set]; omega), List.getElem_set_self]
    omega

theorem getD_set_ne {l : List ℕ} {k n entry : ℕ} (h : k ≠ n) :
    (l.set n entry).getD k 0 = l.getD k 0 := by
  rw [List.getD_eq_getElem?_getD, List.getElem?_set_ne (Ne.symm h), List.getD_eq_getElem?_getD]

/-- The entry that follows from three others. -/
theorem fillEntry_spec {rows : EditRows} (hi : i < a.length) (hj : j < b.length)
    (hprevious : RowOf (a.take i) b b.length rows.previousRow)
    (hcurrent : RowOf (a.take (i + 1)) b j rows.currentRow) :
    (fillEntry a b (i + 1) rows (j + 1)).previousRow = rows.previousRow ∧
      RowOf (a.take (i + 1)) b (j + 1) (fillEntry a b (i + 1) rows (j + 1)).currentRow := by
  refine ⟨rfl, ?_, ?_⟩
  · rw [fillEntry, List.length_set, hcurrent.length]
  · intro k hk
    unfold fillEntry
    dsimp only
    by_cases hkj : k = j + 1
    · have hlt : j + 1 < rows.currentRow.length := by
        rw [hcurrent.length]
        omega
      have ha : a.take (i + 1) = a.take i ++ [a[i]] := List.take_succ_eq_append_getElem hi
      have hb : b.take (j + 1) = b.take j ++ [b[j]] := List.take_succ_eq_append_getElem hj
      have hdiagonal := hprevious.entry j hj.le
      have habove := hprevious.entry (j + 1) hj
      have hleft := hcurrent.entry j le_rfl
      rw [hb] at habove
      rw [ha] at hleft
      rw [hkj, List.getD_eq_getElem _ _ (by rw [List.length_set]; exact hlt),
        List.getElem_set_self, ha, hb, EditDistance.levenshtein_concat, Nat.add_sub_cancel,
        Nat.add_sub_cancel, hdiagonal, habove, hleft,
        List.getElem?_eq_getElem hi, List.getElem?_eq_getElem hj]
      simp only [Option.some.injEq]
    · rw [getD_set_ne hkj]
      exact hcurrent.entry k (by omega)

/-- A row is filled from left to right. -/
theorem fillEntries_spec (rows : EditRows) (hi : i < a.length)
    (hprevious : RowOf (a.take i) b b.length rows.previousRow)
    (hcurrent : RowOf (a.take (i + 1)) b 0 rows.currentRow) {n : ℕ} (hn : n ≤ b.length) :
    ((List.range' 1 n).foldl (fillEntry a b (i + 1)) rows).previousRow = rows.previousRow ∧
      RowOf (a.take (i + 1)) b n
        ((List.range' 1 n).foldl (fillEntry a b (i + 1)) rows).currentRow := by
  induction n with
  | zero => exact ⟨rfl, hcurrent⟩
  | succ n ih =>
      obtain ⟨hsame, hfilled⟩ := ih (by omega)
      rw [List.range'_1_concat, List.foldl_append, List.foldl_cons, List.foldl_nil, add_comm 1 n]
      rw [← hsame] at hprevious
      obtain ⟨hkept, hnext⟩ := fillEntry_spec hi (by omega) hprevious hfilled
      exact ⟨hkept.trans hsame, hnext⟩

/-- One row and the swap: the finished row is the previous one, and the other can be filled
again. -/
theorem fillRow_spec {rows : EditRows} (hi : i < a.length)
    (hprevious : RowOf (a.take i) b b.length rows.previousRow)
    (hcurrent : rows.currentRow.length = b.length + 1) :
    RowOf (a.take (i + 1)) b b.length (fillRow a b rows (i + 1)).previousRow ∧
      (fillRow a b rows (i + 1)).currentRow.length = b.length + 1 := by
  obtain ⟨hsame, hfilled⟩ :=
    fillEntries_spec { rows with currentRow := rows.currentRow.set 0 (i + 1) } hi hprevious
    (rowOf_set_zero hcurrent (by omega)) le_rfl
  refine ⟨hfilled, ?_⟩
  unfold fillRow
  dsimp only
  rw [hsame]
  exact hprevious.length

theorem fillRows_spec {n : ℕ} (hn : n ≤ a.length) :
    RowOf (a.take n) b b.length ((List.range' 1 n).foldl (fillRow a b)
        ⟨List.range (b.length + 1), List.replicate (b.length + 1) 0⟩).previousRow ∧
      ((List.range' 1 n).foldl (fillRow a b)
        ⟨List.range (b.length + 1), List.replicate (b.length + 1) 0⟩).currentRow.length =
          b.length + 1 := by
  induction n with
  | zero => exact ⟨rowOf_range b, List.length_replicate⟩
  | succ n ih =>
      obtain ⟨hprevious, hcurrent⟩ := ih (by omega)
      rw [List.range'_1_concat, List.foldl_append, List.foldl_cons, List.foldl_nil, add_comm 1 n]
      exact fillRow_spec (by omega) hprevious hcurrent

end rows

theorem editDistanceOverRows_eq (a b : Text) : editDistanceOverRows a b = levenshtein a b := by
  have hlast := (fillRows_spec (b := b) (le_refl a.length)).1.entry b.length le_rfl
  rw [List.take_length, List.take_length] at hlast
  exact hlast

/-! ### The rows as lists -/

/-- One row, from the one before it: `previous` from column `j - 1` on, `left` the entry of the row
in that column. -/
def editRow (a : Char) : Text → List ℕ → ℕ → List ℕ
  | c :: b, diagonal :: above :: previous, left =>
      let entry := if a = c then diagonal else 1 + min (min diagonal above) left
      entry :: editRow a b (above :: previous) entry
  | _, _, _ => []

/-- The rows from row `i` on. -/
def editRows (b : Text) : ℕ → Text → List ℕ → List ℕ
  | _, [], previous => previous
  | i, a :: rest, previous => editRows b (i + 1) rest (i :: editRow a b previous i)

/-- What `edit_distance` is to compute: the last entry of the last row, each row a list of its
own. -/
def editDistance (a b : Text) : ℕ :=
  (editRows b 1 a (List.range (b.length + 1))).getD b.length 0

/-- The distances of a prefix of `a` from the prefixes of `b` that go on from `read`. -/
def rowFrom (prefixOfA read b : Text) : List ℕ :=
  (List.range (b.length + 1)).map fun j => levenshtein prefixOfA (read ++ b.take j)

theorem rowFrom_cons (prefixOfA read : Text) (c : Char) (b : Text) :
    rowFrom prefixOfA read (c :: b) =
      levenshtein prefixOfA read :: rowFrom prefixOfA (read ++ [c]) b := by
  unfold rowFrom
  rw [List.length_cons, List.range_succ_eq_map, List.map_cons, List.map_map,
    List.take_zero, List.append_nil]
  refine congrArg _ (List.map_congr_left fun j _ => ?_)
  rw [Function.comp_apply, List.take_succ_cons, List.append_assoc]
  rfl

/-- What `editRow` puts after the entry it is given. -/
theorem editRow_eq (prefixOfA read b : Text) (a : Char) :
    levenshtein (prefixOfA ++ [a]) read ::
        editRow a b (rowFrom prefixOfA read b) (levenshtein (prefixOfA ++ [a]) read) =
      rowFrom (prefixOfA ++ [a]) read b := by
  induction b generalizing read with
  | nil => simp [editRow, rowFrom]
  | cons c b ih =>
      have hentry : (if a = c then levenshtein prefixOfA read
          else 1 + min (min (levenshtein prefixOfA read) (levenshtein prefixOfA (read ++ [c])))
            (levenshtein (prefixOfA ++ [a]) read)) = levenshtein (prefixOfA ++ [a]) (read ++ [c]) :=
        (EditDistance.levenshtein_concat prefixOfA read a c).symm
      obtain ⟨rest, hrest⟩ : ∃ rest,
        rowFrom prefixOfA (read ++ [c]) b = levenshtein prefixOfA (read ++ [c]) :: rest := by
        cases b with
        | nil => exact ⟨[], by simp [rowFrom]⟩
        | cons d b => exact ⟨_, rowFrom_cons prefixOfA (read ++ [c]) d b⟩
      rw [rowFrom_cons, rowFrom_cons, ← ih (read ++ [c]), hrest, editRow, hentry]

theorem editRows_eq (prefixOfA b rest : Text) :
    editRows b (prefixOfA.length + 1) rest (rowFrom prefixOfA [] b) =
      rowFrom (prefixOfA ++ rest) [] b := by
  induction rest generalizing prefixOfA with
  | nil => rw [editRows, List.append_nil]
  | cons a rest ih =>
      have hrow := editRow_eq prefixOfA [] b a
      rw [EditDistance.levenshtein_nil_right, List.length_append, List.length_singleton] at hrow
      have hrest := ih (prefixOfA ++ [a])
      rw [List.length_append, List.length_singleton, List.append_assoc] at hrest
      rw [editRows, hrow]
      exact hrest

theorem editDistance_eq (a b : Text) : editDistance a b = levenshtein a b := by
  have hfirst : List.range (b.length + 1) = rowFrom [] [] b := by
    unfold rowFrom
    refine (List.map_id _).symm.trans (List.map_congr_left fun j hj => ?_)
    rw [List.nil_append, EditDistance.levenshtein_nil_left, List.length_take, id]
    have := List.mem_range.mp hj
    omega
  have hrows : editRows b 1 a (rowFrom [] [] b) = rowFrom a [] b := editRows_eq [] b a
  unfold editDistance
  rw [hfirst, hrows, rowFrom, List.getD_eq_getElem _ _ (by simp), List.getElem_map,
    List.getElem_range, List.take_length, List.nil_append]

/-! ### The suggestions -/

theorem mem_suggestTaskNames {tasks : Tasks} {name suggested : String} :
    suggested ∈ suggestTaskNames tasks name ↔
      suggested ∈ tasks.keys ∧ levenshtein name.toList suggested.toList ≤ 3 := by
  unfold suggestTaskNames
  dsimp only
  rw [List.mem_map]
  constructor
  · rintro ⟨⟨distance, task⟩, hmem, rfl⟩
    rw [List.mem_insertionSort, List.mem_filter, List.mem_map] at hmem
    obtain ⟨⟨task', htask, heq⟩, hnear⟩ := hmem
    cases heq
    rw [decide_eq_true_eq, editDistanceOverRows_eq] at hnear
    exact ⟨htask, hnear⟩
  · rintro ⟨htask, hnear⟩
    refine ⟨(editDistanceOverRows name.toList suggested.toList, suggested), ?_, rfl⟩
    rw [List.mem_insertionSort, List.mem_filter, List.mem_map]
    refine ⟨⟨suggested, htask, rfl⟩, ?_⟩
    rw [decide_eq_true_eq, editDistanceOverRows_eq]
    exact hnear

/-- A name before another: nearer, or as near and before it. -/
def Sooner (name s t : String) : Prop :=
  levenshtein name.toList s.toList < levenshtein name.toList t.toList ∨
    levenshtein name.toList s.toList = levenshtein name.toList t.toList ∧ s < t

theorem pairwise_suggestTaskNames (tasks : Tasks) (name : String) :
    (suggestTaskNames tasks name).Pairwise (Sooner name) := by
  let nearer := fun s t : ℕ × String => s.1 < t.1 ∨ s.1 = t.1 ∧ s.2 ≤ t.2
  have htotal : Std.Total nearer := by
    refine ⟨fun s t => ?_⟩
    rcases lt_trichotomy s.1 t.1 with h | h | h
    · exact Or.inl (Or.inl h)
    · exact (le_total s.2 t.2).imp (fun hle => Or.inr ⟨h, hle⟩) fun hle => Or.inr ⟨h.symm, hle⟩
    · exact Or.inr (Or.inl h)
  have htrans : IsTrans (ℕ × String) nearer := by
    refine ⟨fun s t u hst htu => ?_⟩
    rcases hst with hst | ⟨hst, hle⟩
    · rcases htu with htu | ⟨htu, -⟩
      · exact Or.inl (hst.trans htu)
      · exact Or.inl (hst.trans_eq htu)
    · rcases htu with htu | ⟨htu, hle'⟩
      · exact Or.inl (hst.trans_lt htu)
      · exact Or.inr ⟨hst.trans htu, hle.trans hle'⟩
  let named :=
    (tasks.keys.map fun t => (editDistanceOverRows name.toList t.toList, t)).filter fun s => s.1 ≤ 3
  have hsorted := List.pairwise_insertionSort nearer named
  have hperm := List.perm_insertionSort nearer named
  have hnodup : (named.map Prod.snd).Nodup := by
    refine List.Nodup.sublist (List.filter_sublist.map Prod.snd) ?_
    rw [List.map_map]
    exact (List.map_id tasks.keys).symm ▸ tasks.nodup
  -- each entry carries the distance of its name
  have hdistance : ∀ s ∈ named.insertionSort nearer, s.1 = levenshtein name.toList s.2.toList := by
    intro s hs
    obtain ⟨t, -, rfl⟩ := List.mem_map.mp (List.mem_of_mem_filter (hperm.mem_iff.mp hs))
    exact editDistanceOverRows_eq name.toList t.toList
  have hdistinct : (named.insertionSort nearer).Pairwise fun s t => s.2 ≠ t.2 :=
    List.pairwise_map.mp ((hperm.map Prod.snd).nodup_iff.mpr hnodup)
  refine List.pairwise_map.mpr ((hsorted.and hdistinct).imp_of_mem ?_)
  rintro s t hs ht ⟨hnear, hne⟩
  unfold Sooner
  rw [← hdistance s hs, ← hdistance t ht]
  exact hnear.imp_right fun h => ⟨h.1, lt_of_le_of_ne h.2 hne⟩

/-- The edit distance is the least number of insertions, deletions and substitutions, which is what
the recursion on the two heads gives; and the suggestions are the task names within distance three,
the nearest first and as near ones by name. -/
theorem edit_distance_suggestions :
    (∀ a b : Text, editDistanceOverRows a b = levenshtein a b ∧ editDistance a b = levenshtein a b ∧
      IsLeast {n | Edits n a b} (levenshtein a b)) ∧
    ∀ (tasks : Tasks) (name : String),
      (∀ suggested, suggested ∈ suggestTaskNames tasks name ↔
        suggested ∈ tasks.keys ∧ levenshtein name.toList suggested.toList ≤ 3) ∧
      (suggestTaskNames tasks name).Pairwise (Sooner name) := by
  constructor
  · intro a b
    exact ⟨editDistanceOverRows_eq a b, editDistance_eq a b, EditDistance.levenshtein_isLeast a b⟩
  · intro tasks name
    exact ⟨fun _ => mem_suggestTaskNames, pairwise_suggestTaskNames tasks name⟩

end Ratect
