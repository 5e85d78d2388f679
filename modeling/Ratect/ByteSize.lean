import Ratect.Lines

/-! # Size strings

`parse_byte_size` (`config.rs`) strips a `b`, then a unit, then white space from the end of a size,
and reads what is left as a count.  `IsSize` is the format itself, and `parse_byte_size_exact` says
that the reader accepts it and nothing else, where the size fits an `i64`. -/

namespace Ratect

/-- The greatest `i64`. -/
def i64Max : ℕ := 2 ^ 63 - 1

/-- `invalid_size`. -/
def invalidSize (value : Text) : String :=
  s!"Invalid size '{String.ofList (printable value)}'. It must be in the format '123', '123b', '123k', '123m' or '123g'."

/-- What is before the unit, and how many bytes the unit is. -/
def stripUnit (t : Text) : Text × ℕ :=
  match stripLast 'k' t with
  | some rest => (rest, 1024)
  | none =>
    match stripLast 'm' t with
    | some rest => (rest, 1024 * 1024)
    | none =>
      match stripLast 'g' t with
      | some rest => (rest, 1024 * 1024 * 1024)
      | none => (t, 1)

/-- `parse_byte_size`: a count and a product that do not fit an `i64` are refused. -/
def parseByteSize (value : Text) : Except String ℕ :=
  let lower := (trim value).map Char.toLower
  let withoutB := (stripLast 'b' lower).getD lower
  let (digits, multiplier) := stripUnit withoutB
  match decimal (trimEnd digits) with
  | none => .error (invalidSize value)
  | some count =>
      if i64Max < count then .error (invalidSize value)
      else if i64Max < count * multiplier then .error (invalidSize value)
      else .ok (count * multiplier)

/-! ### The format -/

/-- A unit, by the power of 1024 it is. -/
def IsUnit (t : Text) (power : ℕ) : Prop :=
  t = [] ∧ power = 0 ∨ t ∈ [['k'], ['K']] ∧ power = 1 ∨ t ∈ [['m'], ['M']] ∧ power = 2 ∨
    t ∈ [['g'], ['G']] ∧
    power = 3

/-- Digits, optional white space, an optional unit and an optional `b`. -/
def IsSize (t : Text) (count power : ℕ) : Prop :=
  ∃ digits blanks unit b,
    t = digits ++ blanks ++ unit ++ b ∧ digits ≠ [] ∧ (∀ c ∈ digits, c.isDigit = true) ∧
    (∀ c ∈ blanks, isWhitespace c = true) ∧ IsUnit unit power ∧ b ∈ [[], ['b'], ['B']] ∧
    count = Nat.ofDigitChars 10 digits 0

/-! ### Lower case -/

theorem isWhitespace_iff {c : Char} : isWhitespace c = true ↔ (9 ≤ c.toNat ∧ c.toNat ≤ 13 ∨
    8192 ≤ c.toNat ∧ c.toNat ≤ 8202) ∨
      c.toNat ∈ [32, 133, 160, 5760, 8232, 8233, 8239, 8287, 12288] := by
  simp only [isWhitespace, Bool.or_eq_true, Bool.and_eq_true, decide_eq_true_eq]

/-- Neither digits nor white space have a case. -/
theorem toLower_of_not_letter {c : Char}
    (h : (c.isDigit = true ∨ isWhitespace c = true) ∨ c.toLower.isDigit = true ∨
      isWhitespace c.toLower = true) :
    c.toLower = c := by
  rcases toLower_cases c with hsame | ⟨hlow, hhigh, hmoved⟩
  · exact hsame
  · simp only [isDigit_iff, isWhitespace_iff, hmoved, List.mem_cons,
      List.not_mem_nil, or_false] at h
    omega

theorem toLower_eq {c d D : Char} (hD : D.toNat + 32 = d.toNat)
    (h : c.toLower = d) : c = d ∨ c = D := by
  rcases toLower_cases c with hsame | ⟨-, -, hmoved⟩
  · exact .inl (hsame.symm.trans h)
  · right
    rw [h] at hmoved
    apply Char.toNat_inj.mp
    omega

theorem map_toLower_of_not_letter {t : Text}
    (h : ∀ c ∈ t, (c.isDigit = true ∨ isWhitespace c = true) ∨
      c.toLower.isDigit = true ∨ isWhitespace c.toLower = true) :
    t.map Char.toLower = t := by
  conv_rhs => rw [← List.map_id t]
  exact List.map_congr_left fun c hc => toLower_of_not_letter (h c hc)

theorem map_toLower_eq_singleton {t : Text} {d D : Char} (hD : D.toNat + 32 = d.toNat)
    (h : t.map Char.toLower = [d]) :
    t ∈ [[d], [D]] := by
  obtain ⟨c, rfl, hc⟩ := List.map_eq_singleton_iff.mp h
  rcases toLower_eq hD hc with rfl | rfl
  · exact List.mem_cons_self
  · exact .tail _ List.mem_cons_self

/-- The format of a size in lower case. -/
def IsLowerSize (t : Text) (count multiplier : ℕ) : Prop :=
  ∃ digits blanks unit b,
    t = digits ++ blanks ++ unit ++ b ∧ digits ≠ [] ∧ (∀ c ∈ digits, c.isDigit = true) ∧
    (∀ c ∈ blanks, isWhitespace c = true) ∧
    (unit, multiplier) ∈ [([], 1), (['k'], 1024), (['m'], 1024 * 1024),
      (['g'], 1024 * 1024 * 1024)] ∧
    b ∈ [[], ['b']] ∧ count = Nat.ofDigitChars 10 digits 0

theorem isUnit_map {unit : Text} {multiplier : ℕ} :
    (unit.map Char.toLower, multiplier) ∈
        [([], 1), (['k'], 1024), (['m'], 1024 * 1024), (['g'], 1024 * 1024 * 1024)] ↔
      ∃ power, IsUnit unit power ∧ multiplier = 1024 ^ power := by
  simp only [List.mem_cons, Prod.mk.injEq, List.not_mem_nil, or_false, List.map_eq_nil_iff]
  constructor
  · rintro (⟨rfl, rfl⟩ | ⟨hunit, rfl⟩ | ⟨hunit, rfl⟩ | ⟨hunit, rfl⟩)
    · exact ⟨0, .inl ⟨rfl, rfl⟩, rfl⟩
    · exact ⟨1, .inr (.inl ⟨map_toLower_eq_singleton rfl hunit, rfl⟩), rfl⟩
    · exact ⟨2, .inr (.inr (.inl ⟨map_toLower_eq_singleton rfl hunit, rfl⟩)), rfl⟩
    · exact ⟨3, .inr (.inr (.inr ⟨map_toLower_eq_singleton rfl hunit, rfl⟩)), rfl⟩
  · rintro ⟨power, hunit, rfl⟩
    rcases hunit with ⟨rfl, rfl⟩ | ⟨hunit, rfl⟩ | ⟨hunit, rfl⟩ | ⟨hunit, rfl⟩
    · exact .inl ⟨rfl, rfl⟩
    · right; left
      rcases List.mem_pair.mp hunit with rfl | rfl <;> exact ⟨rfl, rfl⟩
    · right; right; left
      rcases List.mem_pair.mp hunit with rfl | rfl <;> exact ⟨rfl, rfl⟩
    · right; right; right
      rcases List.mem_pair.mp hunit with rfl | rfl <;> exact ⟨rfl, rfl⟩

theorem isLowerSize_map {t : Text} {count multiplier : ℕ} :
    IsLowerSize (t.map Char.toLower) count multiplier ↔
      ∃ power, IsSize t count power ∧ multiplier = 1024 ^ power := by
  constructor
  · rintro ⟨digits, blanks, unit, b, ht, hne, hdigits, hblanks, hunit, hb, hcount⟩
    obtain ⟨t₁, b, rfl, ht₁, rfl⟩ := List.map_eq_append_iff.mp ht
    obtain ⟨t₂, unit, rfl, ht₂, rfl⟩ := List.map_eq_append_iff.mp ht₁
    obtain ⟨digits, blanks, rfl, rfl, rfl⟩ := List.map_eq_append_iff.mp ht₂
    have hd : digits.map Char.toLower = digits :=
      map_toLower_of_not_letter fun c hc => .inr (.inl (hdigits _ (List.mem_map_of_mem hc)))
    have hw : blanks.map Char.toLower = blanks :=
      map_toLower_of_not_letter fun c hc => .inr (.inr (hblanks _ (List.mem_map_of_mem hc)))
    rw [hd] at hne hdigits hcount
    rw [hw] at hblanks
    obtain ⟨power, hunit, hpower⟩ := isUnit_map.mp hunit
    refine ⟨power, ⟨digits, blanks, unit, b, rfl, hne, hdigits, hblanks, hunit, ?_, hcount⟩, hpower⟩
    rcases List.mem_pair.mp hb with hb | hb
    · rw [List.map_eq_nil_iff.mp hb]
      exact List.mem_cons_self
    · exact .tail _ (map_toLower_eq_singleton rfl hb)
  · rintro ⟨power, ⟨digits, blanks, unit, b, rfl, hne, hdigits, hblanks, hunit, hb, hcount⟩, hpower⟩
    refine ⟨digits, blanks, unit.map Char.toLower, b.map Char.toLower, ?_, hne, hdigits, hblanks,
      isUnit_map.mpr ⟨power, hunit, hpower⟩, ?_, hcount⟩
    · rw [List.map_append, List.map_append, List.map_append,
        map_toLower_of_not_letter fun c hc => .inl (.inl (hdigits c hc)),
        map_toLower_of_not_letter fun c hc => .inl (.inr (hblanks c hc))]
    · simp only [List.mem_cons, List.not_mem_nil, or_false] at hb
      rcases hb with rfl | rfl | rfl <;> simp

/-! ### The reader -/

/-- The units, and how many bytes each is. -/
def units : List (Text × ℕ) :=
  [([], 1), (['k'], 1024), (['m'], 1024 * 1024), (['g'], 1024 * 1024 * 1024)]

/-- What `stripUnit` leaves, and the unit it takes. -/
theorem stripUnit_spec (t : Text) :
    ∃ unit, t = (stripUnit t).1 ++ unit ∧ (unit, (stripUnit t).2) ∈ units := by
  rw [stripUnit]
  split
  · next rest h => exact ⟨['k'], stripLast_eq_some.mp h, by simp [units]⟩
  · split
    · next rest h => exact ⟨['m'], stripLast_eq_some.mp h, by simp [units]⟩
    · split
      · next rest h => exact ⟨['g'], stripLast_eq_some.mp h, by simp [units]⟩
      · exact ⟨[], by simp, by simp [units]⟩

theorem stripUnit_append {t unit : Text} {multiplier : ℕ} (hunit : (unit, multiplier) ∈ units)
    (ht : 'k' ∉ t ∧ 'm' ∉ t ∧ 'g' ∉ t) : stripUnit (t ++ unit) = (t, multiplier) := by
  simp only [units, List.mem_cons, Prod.mk.injEq, List.not_mem_nil, or_false] at hunit
  rw [stripUnit]
  rcases hunit with ⟨rfl, rfl⟩ | ⟨rfl, rfl⟩ | ⟨rfl, rfl⟩ | ⟨rfl, rfl⟩
  · rw [List.append_nil, stripLast_of_not_mem ht.1, stripLast_of_not_mem ht.2.1,
      stripLast_of_not_mem ht.2.2]
  · rw [stripLast_append]
  · have hk : stripLast 'k' (t ++ ['m']) = none := stripLast_of_not_mem (by simp [ht.1])
    rw [hk, stripLast_append]
  · have hk : stripLast 'k' (t ++ ['g']) = none := stripLast_of_not_mem (by simp [ht.1])
    have hm : stripLast 'm' (t ++ ['g']) = none := stripLast_of_not_mem (by simp [ht.2.1])
    rw [hk, hm, stripLast_append]

/-- The steps of the reader take a size apart. -/
theorem isLowerSize_iff {t : Text} {count multiplier : ℕ} : IsLowerSize t count multiplier ↔
    decimal (trimEnd (stripUnit ((stripLast 'b' t).getD t)).1) = some count ∧
      (stripUnit ((stripLast 'b' t).getD t)).2 = multiplier := by
  constructor
  · rintro ⟨digits, blanks, unit, b, rfl, hne, hdigits, hblanks, hunit, hb, hcount⟩
    have hletter : ∀ c ∈ digits ++ blanks, c.toNat < 97 ∨ 122 < c.toNat := by
      intro c hc
      rcases List.mem_append.mp hc with hc | hc
      · have := isDigit_iff.mp (hdigits c hc)
        omega
      · have := isWhitespace_iff.mp (hblanks c hc)
        simp only [List.mem_cons, List.not_mem_nil, or_false] at this
        omega
    have habsent : ∀ d : Char, 97 ≤ d.toNat → d.toNat ≤ 122 → d ∉ digits ++ blanks := by
      intro d hlow hhigh hd
      have := hletter d hd
      omega
    have hstrip : (stripLast 'b' (digits ++ blanks ++ unit ++ b)).getD
        (digits ++ blanks ++ unit ++ b) =
        digits ++ blanks ++ unit := by
      rcases List.mem_pair.mp hb with rfl | rfl
      · have hbyte : 'b' ∉ unit := by
          simp only [List.mem_cons, Prod.mk.injEq, List.not_mem_nil, or_false] at hunit
          rcases hunit with ⟨rfl, -⟩ | ⟨rfl, -⟩ | ⟨rfl, -⟩ | ⟨rfl, -⟩ <;> decide
        have hnone : stripLast 'b' (digits ++ blanks ++ unit) = none := by
          apply stripLast_of_not_mem
          rw [List.mem_append, not_or]
          exact ⟨habsent 'b' (by decide) (by decide), hbyte⟩
        rw [List.append_nil, hnone]
        rfl
      · rw [stripLast_append]
        rfl
    have htrim : trimEnd (digits ++ blanks) = digits := by
      apply trimEnd_append hblanks
      intro c hc
      have := isDigit_iff.mp (hdigits c (List.mem_of_getLast? hc))
      rw [← Bool.not_eq_true, isWhitespace_iff]
      simp only [List.mem_cons, List.not_mem_nil, or_false]
      omega
    rw [hstrip, stripUnit_append hunit
      ⟨habsent 'k' (by decide) (by decide), habsent 'm' (by decide) (by decide),
      habsent 'g' (by decide) (by decide)⟩, htrim]
    exact ⟨decimal_eq_some.mpr ⟨hne, hdigits, hcount.symm⟩, rfl⟩
  · rintro ⟨hdecimal, rfl⟩
    obtain ⟨hne, hdigits, hcount⟩ := decimal_eq_some.mp hdecimal
    obtain ⟨blanks, hblanks, hwhite⟩ := trimEnd_spec (stripUnit ((stripLast 'b' t).getD t)).1
    obtain ⟨unit, hunit, hmem⟩ := stripUnit_spec ((stripLast 'b' t).getD t)
    have hb : ∃ b : Text, t = (stripLast 'b' t).getD t ++ b ∧ b ∈ [[], ['b']] := by
      cases hstrip : stripLast 'b' t with
      | none => exact ⟨[], by simp, by simp⟩
      | some rest => exact ⟨['b'], stripLast_eq_some.mp hstrip, by simp⟩
    obtain ⟨b, ht, hb⟩ := hb
    refine ⟨_, blanks, unit, b, ?_, hne, hdigits, hwhite, hmem, hb, hcount.symm⟩
    rw [← hblanks, ← hunit, ← ht]

/-- A size is read exactly where it has the format and fits an `i64`. -/
theorem parse_byte_size_exact (value : Text) (n : ℕ) : parseByteSize value = .ok n ↔
    ∃ count power, IsSize (trim value) count power ∧ count * 1024 ^ power ≤ i64Max ∧
      n = count * 1024 ^ power := by
  have hsize : ∀ count multiplier, IsLowerSize ((trim value).map Char.toLower) count multiplier ↔
      ∃ power, IsSize (trim value) count power ∧ multiplier = 1024 ^ power :=
        fun _ _ => isLowerSize_map
  simp only [isLowerSize_iff] at hsize
  rw [parseByteSize]
  generalize stripUnit ((stripLast 'b' ((trim value).map Char.toLower)).getD
    ((trim value).map Char.toLower))
    = s at hsize ⊢
  obtain ⟨digits, multiplier⟩ := s
  dsimp only at hsize ⊢
  constructor
  · intro h
    split at h
    · cases h
    · next count hcount =>
        split_ifs at h with hfits hproduct
        obtain ⟨power, hformat, rfl⟩ := (hsize count multiplier).mp ⟨hcount, rfl⟩
        exact ⟨count, power, hformat, not_lt.mp hproduct, (Except.ok.inj h).symm⟩
  · rintro ⟨count, power, h, hfits, rfl⟩
    obtain ⟨hcount, rfl⟩ := (hsize count (1024 ^ power)).mpr ⟨power, h, rfl⟩
    have hle : count ≤ i64Max := (Nat.le_mul_of_pos_right count (by positivity)).trans hfits
    rw [hcount]
    simp [not_lt.mpr hle, not_lt.mpr hfits]

end Ratect
