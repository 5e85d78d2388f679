import Ratect.Strings

/-! # Duration strings

`parse_duration` and the form a duration is serialized in (`config.rs`), over exact rationals.  A
duration is its whole nanoseconds.

A number ends where a unit begins, and what follows a unit is a number or nothing, so the first unit
of the list that fits is the one that was written (`find_unit`).  The loop therefore takes off the
pairs a text is made of (`sumPairs_pairs`), takes nothing else (`sumPairs_ok`), and there is one way
to read them (`pairs_unique`). -/

namespace Ratect.Durations

/-! ### The parser -/

/-- The largest `u64`. -/
def maxNanos : ℕ := 2 ^ 64 - 1

def invalid (text : Text) : String :=
  s!"The value '{String.ofList (printable text)}' is not a valid duration."

def isNumberChar (c : Char) : Bool := c.isDigit || c = '.'

/-- The digits of a number and at most one dot as an exact fraction. -/
def fraction (number : Text) : ℚ :=
  let whole := number.takeWhile (· ≠ '.')
  let decimals := (number.dropWhile (· ≠ '.')).drop 1
  (Nat.ofDigitChars 10 (whole ++ decimals) 0 : ℚ) / 10 ^ decimals.length

/-- `UNITS`, two characters before one. -/
def units : List (Text × ℚ) :=
  [(['n', 's'], 1), (['u', 's'], 1000), (['µ', 's'], 1000), (['μ', 's'], 1000),
    (['m', 's'], 1000000),
    (['s'], 1000000000), (['m'], 60 * 1000000000), (['h'], 3600 * 1000000000)]

/-- A number with a digit takes something off. -/
theorem length_dropWhile_number {remaining : Text}
    (h : ¬ (¬ (remaining.takeWhile isNumberChar).any Char.isDigit ∨
      1 < (remaining.takeWhile isNumberChar).count '.')) :
    (remaining.dropWhile isNumberChar).length < remaining.length := by
  have hsplit : (remaining.takeWhile isNumberChar ++ remaining.dropWhile isNumberChar).length =
      remaining.length :=
    congrArg List.length List.takeWhile_append_dropWhile
  have hne : remaining.takeWhile isNumberChar ≠ [] := by
    intro hnil
    rw [hnil] at h
    exact h (Or.inl (by decide))
  have hpos := List.length_pos_iff.mpr hne
  rw [List.length_append] at hsplit
  omega

/-- The loop of `parse_unsigned_duration_nanos`. -/
def sumPairs (text : Text) (remaining : Text) (totalNanos : ℚ) : Except String ℚ :=
  if remaining = [] then .ok totalNanos
  else
    let number := remaining.takeWhile isNumberChar
    let unitText := remaining.dropWhile isNumberChar
    if hnumber : ¬ number.any Char.isDigit ∨ 1 < number.count '.' then .error (invalid text)
    else if unitText = [] then
      .error (s!"The value '{String.ofList (printable text)}' is not a valid duration: " ++
        s!"'{String.ofList (printable number)}' has no unit, such as 's' or 'ms'.")
    else
      have := length_dropWhile_number hnumber
      match units.find? fun unit => unit.1.isPrefixOf unitText with
      | none => .error (invalid text)
      | some (unit, multiplier) =>
          sumPairs text (unitText.drop unit.length) (totalNanos + fraction number * multiplier)
termination_by remaining.length
decreasing_by
  rw [List.length_drop]
  omega

/-- `parse_unsigned_duration_nanos`. -/
def parseUnsignedDurationNanos (text unsigned : Text) : Except String ℚ :=
  if unsigned = ['0'] then .ok 0
  else if unsigned = [] then .error (invalid text)
  else sumPairs text unsigned 0

/-- `f64::round` of a total, which is not negative, and the cast to `u64`. -/
def roundNanos (totalNanos : ℚ) : ℕ := min ⌊totalNanos + 1 / 2⌋₊ maxNanos

/-- The sign in front of a duration. -/
def splitSign (text : Text) : Bool × Text :=
  match text with
  | '-' :: rest => (true, rest)
  | '+' :: rest => (false, rest)
  | _ => (false, text)

/-- `parse_duration`. -/
def parseDuration (text : Text) : Except String ℕ :=
  let (negative, unsigned) := splitSign text
  match parseUnsignedDurationNanos text unsigned with
  | .error e => .error e
  | .ok totalNanos =>
      if negative ∧ 0 < totalNanos then
        .error s!"The duration '{String.ofList (printable text)}' is negative. Durations must be positive."
      else .ok (roundNanos totalNanos)

/-- `duration_string::serialize`. -/
def serialize (nanos : ℕ) : Text := display nanos ++ ['n', 's']

/-! ### The format -/

/-- Digits with at most one dot, and at least one digit. -/
structure IsNumber (t : Text) : Prop where
  chars : ∀ c ∈ t, isNumberChar c = true
  dots : t.count '.' ≤ 1
  digit : ∃ c ∈ t, c.isDigit = true

/-- A number and its unit. -/
@[ext]
structure Pair where
  number : Text
  unit : Text × ℚ
  isNumber : IsNumber number
  isUnit : unit ∈ units

def Pair.text (pair : Pair) : Text := pair.number ++ pair.unit.1

/-- How many nanoseconds a pair is. -/
def Pair.nanos (pair : Pair) : ℚ := fraction pair.number * pair.unit.2

/-- What is written without a sign: `0`, or pairs. -/
inductive Spells : Text → ℚ → Prop
  | zero : Spells ['0'] 0
  | pairs (pairs : List Pair) :
      pairs ≠ [] → Spells (pairs.flatMap Pair.text) (pairs.map Pair.nanos).sum

/-- An optional sign. -/
inductive Sign where
  | none
  | plus
  | minus
deriving DecidableEq

def Sign.text : Sign → Text
  | none => []
  | plus => ['+']
  | minus => ['-']

/-! ### One pair -/

/-- What may follow a unit: nothing, or a number. -/
def Follows (rest : Text) : Prop := ∀ c ∈ rest.head?, isNumberChar c = true

theorem follows_pairs (pairs : List Pair) : Follows (pairs.flatMap Pair.text) := by
  intro c hc
  cases pairs with
  | nil => cases hc
  | cons pair pairs =>
      obtain ⟨d, hd, -⟩ := pair.isNumber.digit
      cases hnumber : pair.number with
      | nil =>
          rw [hnumber] at hd
          cases hd
      | cons first number =>
          rw [List.flatMap_cons, Pair.text, hnumber] at hc
          have hfirst : first = c := Option.some.inj hc
          rw [← hfirst]
          exact pair.isNumber.chars first (by rw [hnumber]; exact List.mem_cons_self)

theorem unit_head {unit : Text × ℚ} (h : unit ∈ units) :
    ∃ c rest, unit.1 = c :: rest ∧ isNumberChar c = false := by
  unfold units at h
  simp only [List.mem_cons, List.not_mem_nil, or_false] at h
  rcases h with rfl | rfl | rfl | rfl | rfl | rfl | rfl | rfl <;> exact ⟨_, _, rfl, by decide⟩

/-- The first unit that fits is the one that was written. -/
theorem find_unit {unit : Text × ℚ} (h : unit ∈ units) {rest : Text} (hrest : Follows rest) :
    units.find? (fun other => other.1.isPrefixOf (unit.1 ++ rest)) = some unit := by
  have hs : ∀ t : Text, rest ≠ 's' :: t := by
    rintro t rfl
    exact absurd (hrest 's' rfl) (by decide)
  unfold units at h ⊢
  simp only [List.mem_cons, List.not_mem_nil, or_false] at h
  cases rest with
  | nil => rcases h with rfl | rfl | rfl | rfl | rfl | rfl | rfl | rfl <;> rfl
  | cons c rest =>
      -- The `s` that would make `m` another unit is no number.
      have hc : ('s' == c) = false := by
        rw [beq_eq_false_iff_ne]
        rintro rfl
        exact hs rest rfl
      rcases h with rfl | rfl | rfl | rfl | rfl | rfl | rfl | rfl
      all_goals simp only [List.find?, List.isPrefixOf, List.cons_append, List.nil_append, hc]
      all_goals rfl

theorem takeWhile_pair (pair : Pair) (rest : Text) :
    (pair.text ++ rest).takeWhile isNumberChar = pair.number ∧
      (pair.text ++ rest).dropWhile isNumberChar = pair.unit.1 ++ rest := by
  obtain ⟨c, tail, hunit, hc⟩ := unit_head pair.isUnit
  rw [Pair.text, List.append_assoc, List.takeWhile_append_of_pos pair.isNumber.chars,
    List.dropWhile_append_of_pos pair.isNumber.chars, hunit, List.cons_append,
    List.takeWhile_cons_of_neg (Bool.eq_false_iff.mp hc),
    List.dropWhile_cons_of_neg (Bool.eq_false_iff.mp hc),
    List.append_nil]
  exact ⟨rfl, rfl⟩

/-- The loop takes a pair off. -/
theorem sumPairs_pair (text : Text) (pair : Pair) {rest : Text} (hrest : Follows rest)
    (totalNanos : ℚ) :
    sumPairs text (pair.text ++ rest) totalNanos =
      sumPairs text rest (totalNanos + pair.nanos) := by
  obtain ⟨hnumber, hunit⟩ := takeWhile_pair pair rest
  obtain ⟨c, tail, hhead, -⟩ := unit_head pair.isUnit
  obtain ⟨d, hd, hdigit⟩ := pair.isNumber.digit
  have hne : pair.text ++ rest ≠ [] := by
    rw [Pair.text, hhead]
    simp
  have hunitNe : pair.unit.1 ++ rest ≠ [] := by
    rw [hhead]
    simp
  have hvalid : ¬ (¬ pair.number.any Char.isDigit = true ∨ 1 < pair.number.count '.') := by
    rw [not_or, not_not, not_lt]
    exact ⟨List.any_eq_true.mpr ⟨d, hd, hdigit⟩, pair.isNumber.dots⟩
  rw [sumPairs, if_neg hne]
  simp only [hnumber, hunit]
  rw [dif_neg hvalid, if_neg hunitNe, find_unit pair.isUnit hrest]
  dsimp only
  rw [List.drop_left']
  · rfl
  · rfl

theorem sumPairs_pairs (text : Text) (pairs : List Pair) (totalNanos : ℚ) :
    sumPairs text (pairs.flatMap Pair.text) totalNanos =
      .ok (totalNanos + (pairs.map Pair.nanos).sum) := by
  induction pairs generalizing totalNanos with
  | nil =>
      rw [List.flatMap_nil, sumPairs, if_pos rfl, List.map_nil, List.sum_nil, add_zero]
  | cons pair pairs ih =>
      rw [List.flatMap_cons, sumPairs_pair text pair (follows_pairs pairs), ih,
        List.map_cons, List.sum_cons, add_assoc]

/-- What the loop accepts is made of pairs. -/
theorem sumPairs_ok {text remaining : Text} {totalNanos result : ℚ}
    (h : sumPairs text remaining totalNanos = .ok result) :
    ∃ pairs : List Pair,
      remaining = pairs.flatMap Pair.text ∧ result = totalNanos + (pairs.map Pair.nanos).sum := by
  fun_induction sumPairs text remaining totalNanos with
  | case1 totalNanos =>
      cases h
      exact ⟨[], rfl, by simp⟩
  | case2 => cases h
  | case3 => cases h
  | case4 => cases h
  | case5 remaining totalNanos hne number unitText hnumber hunit hshorter unit
      multiplier hfind ih =>
      obtain ⟨pairs, hrest, hresult⟩ := ih h
      have hfits := List.find?_some hfind
      have hprefix : unit <+: unitText := List.isPrefixOf_iff_prefix.mp hfits
      rw [not_or, not_not, not_lt] at hnumber
      let pair : Pair :=
        { number := number
          unit := (unit, multiplier)
          isNumber :=
            ⟨fun c hc => List.mem_takeWhile_imp hc, hnumber.2, List.any_eq_true.mp hnumber.1⟩
          isUnit := List.mem_of_find?_eq_some hfind }
      refine ⟨pair :: pairs, ?_, ?_⟩
      · rw [List.flatMap_cons, ← hrest]
        show remaining = number ++ unit ++ unitText.drop unit.length
        rw [List.append_assoc, List.prefix_iff_eq_append.mp hprefix]
        exact List.takeWhile_append_dropWhile.symm
      · rw [hresult, List.map_cons, List.sum_cons, ← add_assoc]
        rfl

/-- There is one way to read a text as pairs. -/
theorem pairs_unique {pairs pairs' : List Pair}
    (h : pairs.flatMap Pair.text = pairs'.flatMap Pair.text) : pairs = pairs' := by
  have hne : ∀ (pair : Pair) (rest : Text), pair.text ++ rest ≠ [] := by
    intro pair rest hnil
    obtain ⟨c, tail, hunit, -⟩ := unit_head pair.isUnit
    rw [Pair.text, hunit] at hnil
    simp at hnil
  induction pairs generalizing pairs' with
  | nil =>
      cases pairs' with
      | nil => rfl
      | cons pair' pairs' => exact absurd h.symm (hne _ _)
  | cons pair pairs ih =>
      cases pairs' with
      | nil => exact absurd h (hne _ _)
      | cons pair' pairs' =>
          rw [List.flatMap_cons, List.flatMap_cons] at h
          obtain ⟨hnumber, hrest⟩ := takeWhile_pair pair (pairs.flatMap Pair.text)
          obtain ⟨hnumber', hrest'⟩ := takeWhile_pair pair' (pairs'.flatMap Pair.text)
          rw [h, hnumber'] at hnumber
          rw [h, hrest'] at hrest
          have hfind := find_unit pair.isUnit (follows_pairs pairs)
          rw [← hrest, find_unit pair'.isUnit (follows_pairs pairs')] at hfind
          have hunit : pair'.unit = pair.unit := Option.some.inj hfind
          rw [hunit] at hrest
          rw [ih (List.append_cancel_left hrest).symm, Pair.ext hnumber.symm hunit.symm]

/-! ### Rounding -/

/-- The nearest integer, cut at the largest `u64`. -/
theorem roundNanos_eq {totalNanos : ℚ} (h : 0 ≤ totalNanos) :
    (roundNanos totalNanos : ℤ) = min (round totalNanos) maxNanos := by
  rw [roundNanos, Nat.cast_min, Int.natCast_floor_eq_floor (by linarith), round_eq]

theorem fraction_nonneg (number : Text) : 0 ≤ fraction number := by
  unfold fraction
  positivity

theorem Pair.nanos_nonneg (pair : Pair) : 0 ≤ pair.nanos := by
  have hunit : ∀ unit ∈ units, (0 : ℚ) ≤ unit.2 := by
    unfold units
    norm_num
  exact mul_nonneg (fraction_nonneg _) (hunit _ pair.isUnit)

theorem Spells.nonneg {unsigned : Text} {totalNanos : ℚ}
    (h : Spells unsigned totalNanos) : 0 ≤ totalNanos := by
  cases h with
  | zero => exact le_rfl
  | pairs pairs hne =>
      apply List.sum_nonneg
      intro nanos hnanos
      obtain ⟨pair, -, rfl⟩ := List.mem_map.mp hnanos
      exact pair.nanos_nonneg

/-! ### The whole -/

theorem Spells.head {unsigned : Text} {totalNanos : ℚ} (h : Spells unsigned totalNanos) :
    ∃ c rest, unsigned = c :: rest ∧ isNumberChar c = true := by
  cases h with
  | zero => exact ⟨_, _, rfl, by decide⟩
  | pairs pairs hne =>
      have hfollows := follows_pairs pairs
      cases hunsigned : pairs.flatMap Pair.text with
      | nil =>
          obtain ⟨pair, rest, rfl⟩ := List.exists_cons_of_ne_nil hne
          have hnil : pair.text = [] := (List.append_eq_nil_iff.mp hunsigned).1
          obtain ⟨c, tail, hunit, -⟩ := unit_head pair.isUnit
          rw [Pair.text, hunit] at hnil
          simp at hnil
      | cons c rest =>
          rw [hunsigned] at hfollows
          exact ⟨c, rest, rfl, hfollows c rfl⟩

theorem parseUnsignedDurationNanos_ok {text unsigned : Text} {totalNanos : ℚ} :
    parseUnsignedDurationNanos text unsigned = .ok totalNanos ↔ Spells unsigned totalNanos := by
  unfold parseUnsignedDurationNanos
  constructor
  · intro h
    split at h
    · next hzero =>
        cases h
        rw [hzero]
        exact .zero
    · split at h
      · cases h
      · next hne =>
          obtain ⟨pairs, hpairs, htotal⟩ := sumPairs_ok h
          rw [zero_add] at htotal
          rw [hpairs, htotal]
          refine .pairs pairs ?_
          rintro rfl
          exact hne hpairs
  · intro h
    cases h with
    | zero => rfl
    | pairs pairs hne =>
        have hsum := sumPairs_pairs text pairs 0
        obtain ⟨c, rest, hhead, -⟩ := (Spells.pairs pairs hne).head
        rw [if_neg, if_neg, hsum, zero_add]
        · rw [hhead]
          simp
        · intro hzero
          obtain ⟨pair, others, rfl⟩ := List.exists_cons_of_ne_nil hne
          obtain ⟨d, hd, -⟩ := pair.isNumber.digit
          obtain ⟨first, tail, hunit, -⟩ := unit_head pair.isUnit
          have hlength := congrArg List.length hzero
          have hpos := List.length_pos_of_mem hd
          rw [List.flatMap_cons, Pair.text, hunit] at hlength
          simp only [List.length_append, List.length_cons, List.length_nil] at hlength
          omega

theorem splitSign_text {sign : Sign} {unsigned : Text} {totalNanos : ℚ}
    (h : Spells unsigned totalNanos) :
    splitSign (sign.text ++ unsigned) = (decide (sign = .minus), unsigned) := by
  obtain ⟨c, rest, rfl, hc⟩ := h.head
  cases sign with
  | plus => rfl
  | minus => rfl
  | none =>
      have hminus : c ≠ '-' := by
        rintro rfl
        exact absurd hc (by decide)
      have hplus : c ≠ '+' := by
        rintro rfl
        exact absurd hc (by decide)
      show splitSign (c :: rest) = (false, c :: rest)
      unfold splitSign
      split
      · next heq => exact absurd (List.cons.inj heq).1 hminus
      · next heq => exact absurd (List.cons.inj heq).1 hplus
      · rfl

theorem exists_sign (text : Text) : ∃ sign : Sign, text = sign.text ++ (splitSign text).2 ∧
    (splitSign text).1 = decide (sign = .minus) := by
  unfold splitSign
  split
  · exact ⟨.minus, rfl, rfl⟩
  · exact ⟨.plus, rfl, rfl⟩
  · exact ⟨.none, rfl, rfl⟩

/-- What a duration is written as: an optional sign, then `0` or pairs, and no minus before a
positive total. -/
def IsDuration (text : Text) (totalNanos : ℚ) : Prop :=
  ∃ (sign : Sign) (unsigned : Text), text = sign.text ++ unsigned ∧ Spells unsigned totalNanos ∧
    ¬ (sign = .minus ∧ 0 < totalNanos)

theorem parseDuration_ok_iff {text : Text} {nanos : ℕ} : parseDuration text = .ok nanos ↔
    ∃ totalNanos, IsDuration text totalNanos ∧ (nanos : ℤ) = min (round totalNanos) maxNanos := by
  unfold parseDuration
  constructor
  · intro h
    obtain ⟨sign, htext, hnegative⟩ := exists_sign text
    dsimp only at h
    split at h
    · cases h
    · next totalNanos htotal =>
        have hspells := parseUnsignedDurationNanos_ok.mp htotal
        split at h
        · cases h
        · next hpositive =>
            cases h
            refine ⟨totalNanos, ⟨sign, _, htext, hspells, ?_⟩, roundNanos_eq hspells.nonneg⟩
            rintro ⟨hminus, hlt⟩
            exact hpositive ⟨by rw [hnegative, decide_eq_true hminus], hlt⟩
  · rintro ⟨totalNanos, ⟨sign, unsigned, rfl, hspells, hpositive⟩, hnanos⟩
    rw [splitSign_text hspells]
    dsimp only
    rw [parseUnsignedDurationNanos_ok.mpr hspells]
    dsimp only
    rw [if_neg]
    · rw [← roundNanos_eq hspells.nonneg] at hnanos
      rw [Int.ofNat_inj.mp hnanos]
    · rintro ⟨hminus, hlt⟩
      exact hpositive ⟨of_decide_eq_true hminus, hlt⟩

theorem fraction_display (n : ℕ) : fraction (display n) = n := by
  have hdigits : ∀ c ∈ display n, decide (c ≠ '.') = true := by
    intro c hc
    have hdigit := display_isDigit hc
    rw [decide_eq_true_eq]
    rintro rfl
    exact absurd hdigit (by decide)
  unfold fraction
  rw [List.takeWhile_eq_self_iff.mpr hdigits, List.dropWhile_eq_nil_iff.mpr hdigits]
  dsimp only
  rw [List.drop_nil, List.append_nil, display, Nat.ofDigitChars_ten_toDigits,
    List.length_nil, pow_zero, div_one]

/-- A number of nanoseconds that fits is read back. -/
theorem parseDuration_serialize {nanos : ℕ} (h : nanos ≤ maxNanos) :
    parseDuration (serialize nanos) = .ok nanos := by
  let pair : Pair :=
    { number := display nanos
      unit := (['n', 's'], 1)
      isNumber := by
        refine ⟨?_, ?_, ?_⟩
        · intro c hc
          rw [isNumberChar, display_isDigit hc]
          rfl
        · rw [List.count_eq_zero.mpr]
          · exact Nat.zero_le 1
          · intro hdot
            exact absurd (display_isDigit hdot) (by decide)
        · obtain ⟨c, rest, hrest⟩ :=
            List.exists_cons_of_ne_nil (Nat.toDigits_ne_nil : display nanos ≠ [])
          have hc : c ∈ display nanos := by
            rw [display, hrest]
            exact List.mem_cons_self
          exact ⟨c, hc, display_isDigit hc⟩
      isUnit := List.mem_cons_self }
  have hnanos : pair.nanos = nanos := by
    show fraction (display nanos) * 1 = _
    rw [mul_one, fraction_display]
  have hspells : Spells (serialize nanos) ([pair].map Pair.nanos).sum := by
    have htext : serialize nanos = [pair].flatMap Pair.text := by simp [pair, Pair.text, serialize]
    rw [htext]
    exact .pairs [pair] (by simp)
  rw [parseDuration_ok_iff]
  refine ⟨_, ⟨.none, serialize nanos, rfl, hspells, ?_⟩, ?_⟩
  · rintro ⟨hminus, -⟩
    cases hminus
  · rw [List.map_singleton, List.sum_singleton, hnanos, round_natCast,
      min_eq_left (Int.ofNat_le.mpr h)]

/-- A text is accepted if and only if it is a sign, if any, and `0` or pairs, and not a minus before
a positive total; its value is the total to the nearest nanosecond, cut at the largest `u64`; there
is one way to read the pairs; and what is accepted is read back from its serialized form. -/
theorem duration_strings :
    (∀ text nanos, parseDuration text = .ok nanos ↔
      ∃ totalNanos, IsDuration text totalNanos ∧ (nanos : ℤ) = min (round totalNanos) maxNanos) ∧
    (∀ pairs pairs' : List Pair,
      pairs.flatMap Pair.text = pairs'.flatMap Pair.text → pairs = pairs') ∧
    ∀ text nanos, parseDuration text = .ok nanos → parseDuration (serialize nanos) = .ok nanos := by
  refine ⟨fun text nanos => parseDuration_ok_iff, fun pairs pairs' => pairs_unique, ?_⟩
  intro text nanos h
  obtain ⟨totalNanos, -, hnanos⟩ := parseDuration_ok_iff.mp h
  apply parseDuration_serialize
  have hle : (nanos : ℤ) ≤ maxNanos := hnanos ▸ min_le_right _ _
  exact Int.ofNat_le.mp hle

end Ratect.Durations
