import Ratect.Text

/-! # Strings

The methods of Rust's `str` and `char` that more than one part of the program uses. -/

namespace Ratect

/-- `char::is_whitespace`: the property `White_Space`. -/
def isWhitespace (c : Char) : Bool :=
  (decide (0x09 ≤ c.toNat) && decide (c.toNat ≤ 0x0d)) ||
    (decide (0x2000 ≤ c.toNat) && decide (c.toNat ≤ 0x200a)) ||
    c.toNat ∈ [0x20, 0x85, 0xa0, 0x1680, 0x2028, 0x2029, 0x202f, 0x205f, 0x3000]

/-- `trim_start`. -/
def trimStart (t : Text) : Text := t.dropWhile isWhitespace

/-- `trim_end`. -/
def trimEnd (t : Text) : Text := t.rdropWhile isWhitespace

/-- `trim`. -/
def trim (t : Text) : Text := trimEnd (trimStart t)

/-- `strip_suffix` of one character. -/
def stripLast (c : Char) (t : Text) : Option Text :=
  if t.getLast? = some c then some t.dropLast else none

/-- `split_once`: what is before and after the first `separator`. -/
def splitOnce (separator : Char) : Text → Option (Text × Text)
  | [] => none
  | c :: rest =>
      if c = separator then some ([], rest)
      else (splitOnce separator rest).map fun parts => (c :: parts.1, parts.2)

/-- `rfind`: where the last `c` is. -/
def rfind (c : Char) : Text → Option ℕ
  | [] => none
  | d :: rest =>
      match rfind c rest with
      | some i => some (i + 1)
      | none => if d = c then some 0 else none

/-- `str::len`: the bytes of the text in UTF-8. -/
def byteLength (t : Text) : ℕ := (t.map Char.utf8Size).sum

/-- The number that decimal digits write. -/
def decimal (digits : Text) : Option ℕ :=
  if digits ≠ [] ∧ digits.all Char.isDigit = true then some (Nat.ofDigitChars 10 digits 0) else none

/-- `str::parse` to an unsigned integer of at most `max`: one `+` may lead it. -/
def parseUnsigned (max : ℕ) (t : Text) : Option ℕ :=
  (decimal (if t.head? = some '+' then t.tail else t)).filter (· ≤ max)

/-- How a number is displayed. -/
def display (n : ℕ) : Text := Nat.toDigits 10 n

/-! ### Trimming -/

theorem trimEnd_append {t blanks : Text} (hblanks : ∀ c ∈ blanks, isWhitespace c = true)
    (ht : ∀ c, t.getLast? = some c → isWhitespace c = false) : trimEnd (t ++ blanks) = t := by
  rw [trimEnd, List.rdropWhile, List.reverse_append, List.dropWhile_append_of_pos]
  · cases hreverse : t.reverse with
    | nil => simpa using hreverse.symm
    | cons c rest =>
        have hlast : t.getLast? = some c := by
          rw [← List.head?_reverse, hreverse]
          rfl
        rw [List.dropWhile_cons_of_neg (by simp [ht c hlast]), ← hreverse, List.reverse_reverse]
  · exact fun c hc => hblanks c (List.mem_reverse.mp hc)

/-- What `trim_end` leaves, and the white space it takes. -/
theorem trimEnd_spec (t : Text) :
    ∃ blanks, t = trimEnd t ++ blanks ∧ ∀ c ∈ blanks, isWhitespace c = true := by
  refine ⟨t.rtakeWhile isWhitespace, ?_, fun c hc => List.mem_rtakeWhile_imp hc⟩
  rw [trimEnd, List.rdropWhile, List.rtakeWhile, ← List.reverse_append,
    List.takeWhile_append_dropWhile, List.reverse_reverse]

theorem stripLast_append (c : Char) (t : Text) : stripLast c (t ++ [c]) = some t := by
  rw [stripLast, List.getLast?_concat, if_pos rfl, List.dropLast_concat]

theorem stripLast_eq_some {c : Char} {t rest : Text} :
    stripLast c t = some rest ↔ t = rest ++ [c] := by
  constructor
  · intro h
    rw [stripLast] at h
    split_ifs at h with hlast
    obtain ⟨front, rfl⟩ := List.getLast?_eq_some_iff.mp hlast
    rw [List.dropLast_concat] at h
    rw [Option.some.inj h]
  · rintro rfl
    exact stripLast_append c rest

/-! ### Searching -/

theorem splitOnce_of_not_mem {separator : Char} {t : Text} (h : separator ∉ t) :
    splitOnce separator t = none := by
  induction t with
  | nil => rfl
  | cons c t ih =>
      rw [List.mem_cons, not_or] at h
      rw [splitOnce, if_neg (Ne.symm h.1), ih h.2]
      rfl

theorem splitOnce_append {separator : Char} {t rest : Text} (h : separator ∉ t) :
    splitOnce separator (t ++ separator :: rest) = some (t, rest) := by
  induction t with
  | nil => rw [List.nil_append, splitOnce, if_pos rfl]
  | cons c t ih =>
      rw [List.mem_cons, not_or] at h
      rw [List.cons_append, splitOnce, if_neg (Ne.symm h.1), ih h.2]
      rfl

theorem rfind_of_not_mem {c : Char} {t : Text} (h : c ∉ t) : rfind c t = none := by
  induction t with
  | nil => rfl
  | cons d t ih =>
      rw [List.mem_cons, not_or] at h
      rw [rfind, ih h.2]
      exact if_neg (Ne.symm h.1)

theorem rfind_append {c : Char} {front rest : Text} (h : c ∉ rest) :
    rfind c (front ++ c :: rest) = some front.length := by
  induction front with
  | nil =>
      rw [List.nil_append, rfind, rfind_of_not_mem h]
      exact if_pos rfl
  | cons d front ih => rw [List.cons_append, rfind, ih, List.length_cons]

/-- A text of ASCII has a byte for each character. -/
theorem byteLength_ascii {t : Text} (h : ∀ c ∈ t, c.toNat < 128) : byteLength t = t.length := by
  induction t with
  | nil => rfl
  | cons c t ih =>
      obtain ⟨hc, ht⟩ := List.forall_mem_cons.mp h
      have hsize : c.utf8Size = 1 := by
        unfold Char.utf8Size
        exact if_pos (Nat.lt_succ_iff.mp hc)
      unfold byteLength at ih ⊢
      rw [List.map_cons, List.sum_cons, ih ht, hsize, List.length_cons, Nat.add_comm]

/-! ### Characters -/

/-- `to_ascii_lowercase` moves the capitals and nothing else. -/
theorem toLower_cases (c : Char) :
    c.toLower = c ∨ 65 ≤ c.toNat ∧ c.toNat ≤ 90 ∧ c.toLower.toNat = c.toNat + 32 := by
  unfold Char.toLower
  split
  · next h =>
      right
      have hlow : 65 ≤ c.toNat := h.1
      have hhigh : c.toNat ≤ 90 := h.2
      refine ⟨hlow, hhigh, ?_⟩
      show (c.val + 32).toNat = c.val.toNat + 32
      rw [UInt32.toNat_add]
      have : c.val.toNat ≤ 90 := hhigh
      simp only [UInt32.reduceToNat]
      omega
  · exact .inl rfl

theorem isDigit_iff {c : Char} : c.isDigit = true ↔ 48 ≤ c.toNat ∧ c.toNat ≤ 57 := by
  simp only [Char.isDigit, Bool.and_eq_true, decide_eq_true_eq]
  exact Iff.rfl

/-! ### Numbers -/

theorem decimal_eq_some {digits : Text} {n : ℕ} : decimal digits = some n ↔
    digits ≠ [] ∧ (∀ c ∈ digits, c.isDigit = true) ∧ Nat.ofDigitChars 10 digits 0 = n := by
  rw [decimal]
  constructor
  · intro h
    split_ifs at h with hdigits
    exact ⟨hdigits.1, by simpa using hdigits.2, Option.some.inj h⟩
  · rintro ⟨hne, hdigits, hn⟩
    rw [if_pos ⟨hne, by simpa using hdigits⟩, hn]

theorem decimal_display (n : ℕ) : decimal (display n) = some n := by
  rw [decimal_eq_some]
  exact ⟨Nat.toDigits_ne_nil, fun c hc => Nat.isDigit_of_mem_toDigits (by omega) (by omega) hc,
    Nat.ofDigitChars_ten_toDigits⟩

theorem display_isDigit {n : ℕ} {c : Char} (hc : c ∈ display n) : c.isDigit = true :=
  Nat.isDigit_of_mem_toDigits (by omega) (by omega) hc

/-- A displayed number is read back. -/
theorem parseUnsigned_display {max n : ℕ} (h : n ≤ max) :
    parseUnsigned max (display n) = some n := by
  have hplus : (display n).head? ≠ some '+' := by
    intro hhead
    have := display_isDigit (List.mem_of_mem_head? hhead)
    revert this
    decide
  rw [parseUnsigned, if_neg hplus, decimal_display]
  simp [h]

end Ratect
