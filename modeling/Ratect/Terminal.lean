import Mathlib

/-! # A terminal

A screen is a grid of cells with a cursor, and a terminal reads what is written character by
character: it prints, goes to the next line or back to the first column, and does what an escape
sequence says.  There is no last row, so nothing is ever scrolled away.  A cell holds the character
that was printed there; one of no width goes with the cell before it, and is left out.

Text that never goes back keeps everything before the cursor (`Advances`), and a character that fits
in what is left of its row stays in it (`feed_fits`). -/

namespace Terminal

/-- What is read of an escape sequence. -/
inductive Reading where
  | ground
  | escape
  | csi (parameters : List Char)
deriving DecidableEq

abbrev Row := ℕ → Option Char

def Row.blank : Row := fun _ => none

/-- A character over the columns that it is wide. -/
def Row.put (row : Row) (col width : ℕ) (c : Char) : Row :=
  fun k => if col ≤ k ∧ k < col + width then if k = col then some c else none else row k

/-- Cells and a cursor, which a full row leaves past the last column. -/
structure Screen where
  cells : ℕ → Row
  row : ℕ
  col : ℕ
  reading : Reading

/-- How many columns there are, and how many of them a character takes. -/
structure Device where
  columns : ℕ
  charWidth : Char → ℕ

/-- What a control sequence does: it moves up, or erases in the row.  No other moves or prints
anything here, styles among them. -/
def Screen.control (s : Screen) (parameters : List Char) (final : Char) : Screen :=
  match final with
  | 'A' => { s with row := s.row - max 1 (Nat.ofDigitChars 10 parameters 0) }
  | 'K' =>
      let erased : ℕ → Bool := fun k =>
        if parameters = ['2'] then true else if parameters = ['1'] then k ≤ s.col else s.col ≤ k
      { s with
        cells := Function.update s.cells s.row fun k => if erased k then none else s.cells s.row k }
  | _ => s

namespace Device

variable (d : Device)

/-- A character that does not fit goes to the next row. -/
def print (c : Char) (s : Screen) : Screen :=
  let width := d.charWidth c
  if s.col + width ≤ d.columns then
    { s with
      cells := Function.update s.cells s.row ((s.cells s.row).put s.col width c),
      col := s.col + width }
  else
    { s with
      cells := Function.update s.cells (s.row + 1) ((s.cells (s.row + 1)).put 0 width c)
      row := s.row + 1
      col := width }

/-- One character.  In raw mode a line feed keeps to its column. -/
def feed (raw : Bool) (s : Screen) (c : Char) : Screen :=
  if c = '\n' then { s with row := s.row + 1, col := if raw then s.col else 0 }
  else if c = '\r' then { s with col := 0 }
  else
    match s.reading with
    | .ground =>
        if c = '\x1b' then { s with reading := .escape }
        else if c = '\t' then { s with
          col := max s.col (min (d.columns - 1) (8 * (s.col / 8 + 1))) }
        else d.print c s
    | .escape => { s with reading := if c = '[' then .csi [] else .ground }
    | .csi parameters =>
        if c.isAlpha then { s.control parameters c with reading := .ground }
        else { s with reading := .csi (parameters ++ [c]) }

def write (raw : Bool) (text : List Char) (s : Screen) : Screen := text.foldl (d.feed raw) s

end Device

/-! ### What stays -/

/-- A cell, by row and column. -/
abbrev Place := ℕ ×ₗ ℕ

def Screen.cursor (s : Screen) : Place := toLex (s.row, s.col)

/-- The start of a row. -/
def startOf (row : ℕ) : Place := toLex (row, 0)

/-- Nothing before a place is changed. -/
def Keeps (place : Place) (s s' : Screen) : Prop :=
  ∀ row col, toLex (row, col) < place → s'.cells row col = s.cells row col

/-- What is before the cursor stays, and the cursor does not go back. -/
structure Advances (s s' : Screen) : Prop where
  keeps : Keeps s.cursor s s'
  forward : s.cursor ≤ s'.cursor

section keeps

variable {p q : Place} {s s' s'' : Screen}

theorem Keeps.refl (p : Place) (s : Screen) : Keeps p s s := fun _ _ _ => rfl

theorem Keeps.trans (h : Keeps p s s') (h' : Keeps p s' s'') : Keeps p s s'' := by
  intro row col hlt
  rw [h' row col hlt, h row col hlt]

theorem Keeps.mono (h : Keeps p s s') (hqp : q ≤ p) : Keeps q s s' :=
  fun row col hlt => h row col (hlt.trans_le hqp)

/-- Rows before one that keeps them. -/
theorem Keeps.of_rows {r : ℕ} (h : ∀ row < r, s'.cells row = s.cells row) :
    Keeps (startOf r) s s' := by
  intro row col hlt
  rw [h row]
  rcases Prod.Lex.toLex_lt_toLex.mp hlt with hrow | ⟨-, hcol⟩
  · exact hrow
  · exact absurd hcol (Nat.not_lt_zero col)

theorem Advances.refl (s : Screen) : Advances s s := ⟨.refl _ s, le_refl _⟩

theorem Advances.trans (h : Advances s s') (h' : Advances s' s'') : Advances s s'' :=
  ⟨h.keeps.trans (h'.keeps.mono h.forward), h.forward.trans h'.forward⟩

theorem startOf_le_cursor {r : ℕ} (h : r ≤ s.row) : startOf r ≤ s.cursor := by
  rw [startOf, Screen.cursor, Prod.Lex.toLex_le_toLex]
  omega

theorem startOf_le_startOf {a b : ℕ} (h : a ≤ b) : startOf a ≤ startOf b := by
  rw [startOf, startOf, Prod.Lex.toLex_le_toLex]
  omega

end keeps

/-! ### Writing -/

namespace Device

variable {d : Device} {raw : Bool} {s : Screen}

@[simp] theorem write_nil : d.write raw [] s = s := rfl

theorem write_cons (c : Char) (text : List Char) :
    d.write raw (c :: text) s = d.write raw text (d.feed raw s c) :=
  rfl

theorem write_append (a b : List Char) : d.write raw (a ++ b) s = d.write raw b (d.write raw a s) :=
  List.foldl_append ..

/-- A printed character changes nothing before the cursor. -/
theorem advances_print (c : Char) : Advances s (d.print c s) := by
  unfold print
  dsimp only
  split
  · refine ⟨fun row col hlt => ?_, ?_⟩
    · dsimp only
      by_cases hrow : row = s.row
      · rw [hrow, Function.update_self, Row.put, if_neg]
        rw [Screen.cursor, Prod.Lex.toLex_lt_toLex] at hlt
        dsimp only at hlt
        omega
      · rw [Function.update_of_ne hrow]
    · rw [Screen.cursor, Screen.cursor, Prod.Lex.toLex_le_toLex]
      exact Or.inr ⟨rfl, Nat.le_add_right _ _⟩
  · refine ⟨fun row col hlt => ?_, ?_⟩
    · dsimp only
      rw [Function.update_of_ne]
      rw [Screen.cursor, Prod.Lex.toLex_lt_toLex] at hlt
      dsimp only at hlt
      omega
    · rw [Screen.cursor, Screen.cursor, Prod.Lex.toLex_le_toLex]
      exact Or.inl (Nat.lt_succ_self _)

/-- Nor does any character but one that goes back, or that starts an escape sequence. -/
theorem advances_feed {c : Char} (hground : s.reading = .ground) (hreturn : c ≠ '\r')
    (hescape : c ≠ '\x1b') :
    Advances s (d.feed false s c) ∧ (d.feed false s c).reading = .ground := by
  obtain ⟨cells, row, col, reading⟩ := s
  cases hground
  unfold feed
  rw [if_neg hreturn]
  dsimp only
  rw [if_neg hescape]
  split
  · refine ⟨⟨.refl _ _, ?_⟩, rfl⟩
    rw [Screen.cursor, Screen.cursor, Prod.Lex.toLex_le_toLex]
    exact Or.inl (Nat.lt_succ_self _)
  · split
    · refine ⟨⟨.refl _ _, ?_⟩, rfl⟩
      rw [Screen.cursor, Screen.cursor, Prod.Lex.toLex_le_toLex]
      exact Or.inr ⟨rfl, le_max_left _ _⟩
    · refine ⟨advances_print c, ?_⟩
      unfold print
      dsimp only
      split <;> rfl

/-! Control sequences -/

/-- The parameters of a control sequence are read. -/
theorem write_parameters {code : List Char}
    (hcode : ∀ c ∈ code, c.isAlpha = false ∧ c ≠ '\n' ∧ c ≠ '\r') {read : List Char}
    (hreading : s.reading = .csi read) :
    d.write raw code s = { s with reading := .csi (read ++ code) } := by
  induction code generalizing s read with
  | nil =>
      rw [List.append_nil, ← hreading]
      rfl
  | cons c code ih =>
      obtain ⟨⟨halpha, hfeed, hreturn⟩, hcode⟩ := List.forall_mem_cons.mp hcode
      rw [write_cons, feed, if_neg hfeed, if_neg hreturn, hreading]
      dsimp only
      rw [halpha, if_neg Bool.false_ne_true, ih hcode rfl, List.append_assoc, List.singleton_append]

theorem control_reading (code : List Char) (final : Char) (reading : Reading) :
    { { s with reading := reading }.control code final with reading := .ground } =
      { s.control code final with reading := .ground } := by
  unfold Screen.control
  split <;> rfl

/-- A control sequence is read whole, and does what it says. -/
theorem write_control {code : List Char}
    (hcode : ∀ c ∈ code, c.isAlpha = false ∧ c ≠ '\n' ∧ c ≠ '\r') {final : Char}
    (hfinal : final.isAlpha = true) (hground : s.reading = .ground) :
    d.write raw ('\x1b' :: '[' :: (code ++ [final])) s =
      { s.control code final with reading := .ground } := by
  have hfeed : final ≠ '\n' := by
    rintro rfl
    revert hfinal
    decide
  have hreturn : final ≠ '\r' := by
    rintro rfl
    revert hfinal
    decide
  have hopened : d.feed raw (d.feed raw s '\x1b') '[' = { s with reading := .csi [] } := by
    obtain ⟨cells, row, col, reading⟩ := s
    cases hground
    rfl
  rw [write_cons, write_cons, hopened, write_append, write_parameters hcode rfl, write_cons,
    write_nil, List.nil_append, feed, if_neg hfeed, if_neg hreturn]
  dsimp only
  rw [hfinal, if_pos rfl]
  exact control_reading code final _

/-- A style shows nothing. -/
theorem write_style {code : List Char} (hcode : ∀ c ∈ code, c.isAlpha = false ∧ c ≠ '\n' ∧ c ≠ '\r')
    (hground : s.reading = .ground) : d.write raw ('\x1b' :: '[' :: (code ++ ['m'])) s = s := by
  rw [write_control hcode (by decide) hground, ← hground]
  rfl

/-- Up by a number of rows. -/
theorem write_up {n : ℕ} (hn : 0 < n) (hground : s.reading = .ground) :
    d.write raw ('\x1b' :: '[' :: (Nat.toDigits 10 n ++ ['A'])) s =
      { s with row := s.row - n } := by
  have hdigits : ∀ c ∈ Nat.toDigits 10 n, c.isAlpha = false ∧ c ≠ '\n' ∧ c ≠ '\r' := by
    intro c hc
    have hdigit : c.isDigit = true := Nat.isDigit_of_mem_toDigits (by omega) (by omega) hc
    refine ⟨?_, ?_, ?_⟩
    · have h9 : '9'.val.toNat = 57 := rfl
      have hA : 'A'.val.toNat = 65 := rfl
      have ha : 'a'.val.toNat = 97 := rfl
      simp only [Char.isDigit, Char.isAlpha, Char.isUpper, Char.isLower,
        Bool.and_eq_true, decide_eq_true_eq, Bool.or_eq_false_iff, Bool.and_eq_false_iff,
        decide_eq_false_iff_not, UInt32.le_iff_toNat_le, ge_iff_le] at *
      omega
    · rintro rfl
      revert hdigit
      decide
    · rintro rfl
      revert hdigit
      decide
  rw [write_control hdigits (by decide) hground, ← hground, Screen.control,
    Nat.ofDigitChars_ten_toDigits, Nat.max_eq_right hn]

end Device

/-! ### Text that fits -/

/-- A row with text laid from a column on. -/
def lay (charWidth : Char → ℕ) : ℕ → List Char → Row → Row
  | _, [], row => row
  | col, c :: text, row => lay charWidth (col + charWidth c) text (row.put col (charWidth c) c)

/-- A character that fits stays in its row. -/
theorem Device.feed_fits {d : Device} {raw : Bool} {s : Screen} {c : Char}
    (hc : c ≠ '\n' ∧ c ≠ '\r' ∧ c ≠ '\t' ∧ c ≠ '\x1b') (hground : s.reading = .ground)
    (hfits : s.col + d.charWidth c ≤ d.columns) :
    d.feed raw s c =
      { s with
        cells := Function.update s.cells s.row ((s.cells s.row).put s.col (d.charWidth c) c)
        col := s.col + d.charWidth c } := by
  obtain ⟨hfeed, hreturn, htab, hescape⟩ := hc
  obtain ⟨cells, row, col, reading⟩ := s
  cases hground
  unfold feed
  rw [if_neg hfeed, if_neg hreturn]
  dsimp only
  rw [if_neg hescape, if_neg htab, print]
  exact if_pos hfits

end Terminal
