import Ratect.Console

/-! # What no string can put on a terminal

`Pieces P S` are the texts made of glyphs that satisfy `P` and of whole sequences that satisfy `S`.
A `Message` is made of plain glyphs, line breaks, tabs and the program's own styles; a `Row` has no
line breaks or tabs; `Clean` text may hold the program's own cursor movements too.  The texts the
console composes are messages, and `strip`, which takes the program's own sequences out of clean
text, leaves no other control character. -/

namespace Ratect.Ui

/-- Texts made of glyphs and of sequences. -/
inductive Pieces (P : Glyph → Prop) (S : Text → Prop) : Text → Prop
  | nil : Pieces P S []
  | glyph {g : Glyph} {text : Text} : P g → Pieces P S text → Pieces P S (g :: text)
  | sequence {s text : Text} : S s → Pieces P S text → Pieces P S (s ++ text)

namespace Pieces

variable {P Q : Glyph → Prop} {S T : Text → Prop}

theorem append {a b : Text} (ha : Pieces P S a) (hb : Pieces P S b) : Pieces P S (a ++ b) := by
  induction ha with
  | nil => exact hb
  | glyph hg _ ih => exact .glyph hg ih
  | sequence hs _ ih =>
      rw [List.append_assoc]
      exact .sequence hs ih

theorem mono (hP : ∀ g, P g → Q g) (hS : ∀ s, S s → T s) {text : Text}
    (h : Pieces P S text) : Pieces Q T text := by
  induction h with
  | nil => exact .nil
  | glyph hg _ ih => exact .glyph (hP _ hg) ih
  | sequence hs _ ih => exact .sequence (hS _ hs) ih

theorem of_glyphs {text : Text} (h : ∀ g ∈ text, P g) : Pieces P S text := by
  induction text with
  | nil => exact .nil
  | cons g text ih =>
      exact .glyph (h g List.mem_cons_self) (ih fun g' hg' => h g' (List.mem_cons_of_mem _ hg'))

theorem of_sequence {s : Text} (h : S s) : Pieces P S s := by
  rw [← List.append_nil s]
  exact .sequence h .nil

theorem flatMap {α : Type} {items : List α} {f : α → Text} (h : ∀ a ∈ items, Pieces P S (f a)) :
    Pieces P S (items.flatMap f) := by
  induction items with
  | nil => exact .nil
  | cons a items ih =>
      rw [List.flatMap_cons]
      exact (h a List.mem_cons_self).append (ih fun b hb => h b (List.mem_cons_of_mem _ hb))

/-- Where no sequence holds a glyph, a text can be split at it. -/
theorem split {a b : Text} {g : Glyph} (hS : ∀ s, S s → g ∉ s) (h : Pieces P S (a ++ g :: b)) :
    Pieces P S a ∧ P g ∧ Pieces P S b := by
  generalize htext : a ++ g :: b = text at h
  induction h generalizing a with
  | nil => simp at htext
  | @glyph g' text hg htext' ih =>
      cases a with
      | nil =>
          obtain ⟨rfl, rfl⟩ := List.cons.inj htext
          exact ⟨.nil, hg, htext'⟩
      | cons a₀ a =>
          obtain ⟨rfl, hrest⟩ := List.cons.inj htext
          obtain ⟨ha, hg', hb⟩ := ih hrest
          exact ⟨.glyph hg ha, hg', hb⟩
  | @sequence s text hs _ ih =>
      rcases List.append_eq_append_iff.mp htext with ⟨a', rfl, hrest⟩ | ⟨b', rfl, hrest⟩
      · cases a' with
        | nil =>
            obtain ⟨-, hg, hb⟩ := ih (a := []) hrest
            exact ⟨of_sequence (by simpa using hs), hg, hb⟩
        | cons g' a' =>
            obtain ⟨rfl, -⟩ := List.cons.inj hrest
            exact absurd (by simp) (hS _ hs)
      · obtain ⟨ha, hg', hb⟩ := ih hrest.symm
        exact ⟨.sequence hs ha, hg', hb⟩

end Pieces

/-! ### Sequences -/

/-- A style: `\x1b[`, a code, `m`. -/
def Sgr (s : Text) : Prop :=
  ∃ code : Str,
    (∀ c ∈ code, c.isDigit ∨ c = ';') ∧ s = (('\x1b' :: '[' :: code) ++ ['m']).map (⟨·, true⟩)

/-- A movement of the cursor: to the first column, over the row, or up. -/
def Cursor (s : Text) : Prop :=
  s = own "\r" ∨ s = own "\x1b[2K" ∨ ∃ n : ℕ, s = own ("\x1b[" ++ toString n ++ "A")

/-- A glyph that is no control character. -/
def Printable (g : Glyph) : Prop := isControl g.char = false

/-- A glyph that is no control character but a line break or a tab. -/
def Harmless (g : Glyph) : Prop := isControl g.char = true → g.char = '\n' ∨ g.char = '\t'

abbrev Row : Text → Prop := Pieces Printable Sgr

abbrev Message : Text → Prop := Pieces Harmless Sgr

abbrev Clean : Text → Prop := Pieces Harmless fun s => Sgr s ∨ Cursor s

theorem Printable.harmless {g : Glyph} (h : Printable g) : Harmless g := by
  intro hcontrol
  rw [h] at hcontrol
  cases hcontrol

theorem Pieces.message {text : Text} (h : Row text) : Message text :=
  h.mono (fun _ h => h.harmless) fun _ h => h

theorem Pieces.clean {text : Text} (h : Message text) : Clean text :=
  h.mono (fun _ h => h) fun _ h => .inl h

theorem sgr_of_code {code : String} (h : code.toList.all (fun c => c.isDigit || c = ';') = true) :
    Sgr (sgr code) := by
  refine ⟨code.toList, ?_, ?_⟩
  · simpa using h
  · simp [sgr, own]

theorem Sgr.no_break {s : Text} (h : Sgr s) {g : Glyph} (hg : g ∈ s) : g.char ≠ '\n' := by
  obtain ⟨code, hcode, rfl⟩ := h
  obtain ⟨c, hc, rfl⟩ := List.mem_map.mp hg
  rintro rfl
  simp only [List.cons_append, List.mem_cons, List.mem_append] at hc
  rcases hc with hc | hc | hc | hc | hc
  · cases hc
  · cases hc
  · rcases hcode _ hc with h | h
    · cases h
    · cases h
  · cases hc
  · cases hc

/-! ### Taking the program's own sequences out -/

/-- The text without the program's own escape sequences and carriage returns.  A character of a
string is never taken out. -/
def strip : Bool → Text → Text
  | _, [] => []
  | true, g :: rest => if g.own then strip (!g.char.isAlpha) rest else g :: strip false rest
  | false, g :: rest =>
      if g.own ∧ g.char = '\x1b' then strip true rest
      else if g.own ∧ g.char = '\r' then strip false rest
      else g :: strip false rest

theorem strip_code {code : Str} (hcode : ∀ c ∈ code, c.isAlpha = false) (text : Text) :
    strip true (code.map (⟨·, true⟩) ++ text) = strip true text := by
  induction code with
  | nil => rfl
  | cons c code ih =>
      have hc : c.isAlpha = false := hcode c List.mem_cons_self
      simp only [List.map_cons, List.cons_append, strip, if_true, hc, Bool.not_false]
      exact ih fun c' hc' => hcode c' (List.mem_cons_of_mem _ hc')

theorem not_alpha_of_digit {c : Char} (h : c.isDigit = true) : c.isAlpha = false := by
  have h9 : '9'.val.toNat = 57 := rfl
  have hA : 'A'.val.toNat = 65 := rfl
  have ha : 'a'.val.toNat = 97 := rfl
  simp only [Char.isDigit, Char.isAlpha, Char.isUpper, Char.isLower,
    Bool.and_eq_true, decide_eq_true_eq, Bool.or_eq_false_iff, Bool.and_eq_false_iff,
    decide_eq_false_iff_not, UInt32.le_iff_toNat_le, ge_iff_le] at *
  omega

theorem toString_digits (n : ℕ) : ∀ c ∈ (toString n).toList, c.isDigit = true := by
  intro c hc
  rw [Nat.toString_eq_repr, Nat.toList_repr] at hc
  exact Nat.isDigit_of_mem_toDigits (by omega) (by omega) hc

theorem sgr_code_not_alpha {code : Str} (hcode : ∀ c ∈ code, c.isDigit ∨ c = ';') :
    ∀ c ∈ code, c.isAlpha = false := by
  intro c hc
  rcases hcode c hc with h | rfl
  · exact not_alpha_of_digit h
  · rfl

theorem strip_sgr {s : Text} (h : Sgr s) (text : Text) :
    strip false (s ++ text) = strip false text := by
  obtain ⟨code, hcode, rfl⟩ := h
  have halpha := sgr_code_not_alpha hcode
  have hopen : '['.isAlpha = false := by decide
  have hlast : 'm'.isAlpha = true := by decide
  simp only [List.map_append, List.map_cons, List.cons_append, List.append_assoc, strip,
    and_self, if_true, hopen, Bool.not_false, strip_code halpha, List.map_nil, List.nil_append,
    hlast, Bool.not_true]

theorem strip_cursor {s : Text} (h : Cursor s) (text : Text) :
    strip false (s ++ text) = strip false text := by
  rcases h with rfl | rfl | ⟨n, rfl⟩
  · rfl
  · rfl
  · have halpha : ∀ c ∈ (toString n).toList, c.isAlpha = false :=
      fun c hc => not_alpha_of_digit (toString_digits n c hc)
    have htext : own ("\x1b[" ++ toString n ++ "A") =
        ⟨'\x1b', true⟩ :: ⟨'[', true⟩ ::
          ((toString n).toList.map (⟨·, true⟩) ++ [⟨'A', true⟩]) := by
      simp [own]
    have hopen : '['.isAlpha = false := by decide
    have hlast : 'A'.isAlpha = true := by decide
    rw [htext]
    simp only [List.cons_append, List.append_assoc, strip, and_self, if_true, hopen, Bool.not_false,
      strip_code halpha, List.nil_append, hlast, Bool.not_true]

/-- What clean text shows, but for its sequences, is harmless. -/
theorem Pieces.strip {text : Text} (h : Clean text) : ∀ g ∈ strip false text, Harmless g := by
  induction h with
  | nil => simp [Ui.strip]
  | @glyph g text hg _ ih =>
      intro g' hg'
      by_cases hescape : g.own ∧ g.char = '\x1b'
      · have : isControl g.char = true := by rw [hescape.2]; decide
        rcases hg this with h | h <;> simp [hescape.2] at h
      · by_cases hreturn : g.own ∧ g.char = '\r'
        · have : isControl g.char = true := by rw [hreturn.2]; decide
          rcases hg this with h | h <;> simp [hreturn.2] at h
        · rw [Ui.strip, if_neg hescape, if_neg hreturn] at hg'
          rcases List.mem_cons.mp hg' with rfl | hg'
          · exact hg
          · exact ih g' hg'
  | sequence hs _ ih =>
      rcases hs with hs | hs
      · rw [strip_sgr hs]
        exact ih
      · rw [strip_cursor hs]
        exact ih

/-! ### Strings -/

theorem digitChar_printable (n : ℕ) : isControl (Nat.digitChar n) = false := by
  by_cases h : n < 16
  · have hall : ∀ n < 16, isControl (Nat.digitChar n) = false := by decide
    exact hall n h
  · have : Nat.digitChar n = '*' := by
      unfold Nat.digitChar
      repeat rw [if_neg (by omega)]
    rw [this]
    decide

theorem toDigitsCore_printable {base fuel n : ℕ} {acc : List Char}
    (hacc : ∀ c ∈ acc, isControl c = false) :
    ∀ c ∈ Nat.toDigitsCore base fuel n acc, isControl c = false := by
  induction fuel generalizing n acc with
  | zero => exact hacc
  | succ fuel ih =>
      have hcons : ∀ c ∈ Nat.digitChar (n % base) :: acc, isControl c = false := by
        intro c hc
        rcases List.mem_cons.mp hc with rfl | hc
        · exact digitChar_printable _
        · exact hacc c hc
      rw [Nat.toDigitsCore]
      split_ifs
      · exact hcons
      · exact ih hcons

theorem printable_of_all {l : List Char} (h : l.all (fun c => !isControl c) = true) :
    ∀ c ∈ l, isControl c = false := by
  simpa using h

theorem escapeDebug_printable (c : Char) : ∀ e ∈ escapeDebug c, isControl e = false := by
  have hdigits : ∀ e ∈ Nat.toDigits 16 c.toNat, isControl e = false :=
    toDigitsCore_printable (by simp)
  unfold escapeDebug
  split_ifs
  · exact printable_of_all rfl
  · exact printable_of_all rfl
  · exact printable_of_all rfl
  · exact printable_of_all rfl
  · intro e he
    rw [List.append_assoc, List.mem_append, List.mem_append] at he
    rcases he with he | he | he
    · exact printable_of_all rfl e he
    · exact hdigits e he
    · exact printable_of_all rfl e he

theorem escapeControls_printable {value : Str} {escaped : Char → Bool} :
    ∀ e ∈ escapeControls value escaped, isControl e = true → escaped e = false := by
  intro e he hcontrol
  obtain ⟨c, -, hc⟩ := List.mem_flatMap.mp he
  split_ifs at hc with h
  · rw [escapeDebug_printable c e hc] at hcontrol
    cases hcontrol
  · obtain rfl := List.mem_singleton.mp hc
    simpa [hcontrol] using h

/-- A name or a value shows no control character. -/
theorem row_toText (value : Str) : Row (toText value) := by
  apply Pieces.of_glyphs
  intro g hg
  obtain ⟨c, hc, rfl⟩ := List.mem_map.mp hg
  by_contra hcontrol
  have := escapeControls_printable c hc (by simpa [Printable] using hcontrol)
  cases this

/-- A message shows line breaks and tabs at most. -/
theorem message_ofStr (value : Str) : Message (Text.ofStr value) := by
  apply Pieces.of_glyphs
  intro g hg hcontrol
  obtain ⟨c, hc, rfl⟩ := List.mem_map.mp hg
  have := escapeControls_printable c hc hcontrol
  simp only [Bool.and_eq_false_iff, decide_eq_false_iff_not, not_not] at this
  exact this

theorem own_printable {literal : String} (h : literal.toList.all (fun c => !isControl c) = true)
    {g : Glyph} (hg : g ∈ own literal) : Printable g := by
  obtain ⟨c, hc, rfl⟩ := List.mem_map.mp hg
  exact printable_of_all h c hc

/-- The program's own literals, where they hold no control character. -/
theorem row_own {literal : String}
    (h : literal.toList.all (fun c => !isControl c) = true) : Row (own literal) :=
  .of_glyphs fun _ hg => own_printable h hg

theorem digit_printable {c : Char} (h : c.isDigit = true) : isControl c = false := by
  have h0 : '0'.val.toNat = 48 := rfl
  have h9 : '9'.val.toNat = 57 := rfl
  simp only [Char.isDigit, Bool.and_eq_true, decide_eq_true_eq,
    UInt32.le_iff_toNat_le, ge_iff_le] at h
  simp only [isControl, Char.toNat, Bool.or_eq_false_iff, Bool.and_eq_false_iff,
    decide_eq_false_iff_not]
  omega

theorem row_number (n : ℕ) : Row (number n) := by
  apply row_own
  simp only [List.all_eq_true, Bool.not_eq_true']
  exact fun c hc => digit_printable (toString_digits n c hc)

theorem row_join {items : List Text} (h : ∀ item ∈ items, Row item) {separator : String}
    (hseparator : separator.toList.all (fun c => !isControl c) = true) :
    Row (Text.join items separator) := by
  induction items with
  | nil => exact .nil
  | cons item items ih =>
      have hrest := ih fun item' hitem => h item' (List.mem_cons_of_mem _ hitem)
      cases items with
      | nil =>
          rw [Text.join, List.intersperse_singleton, List.flatten_singleton]
          exact h item List.mem_cons_self
      | cons next items =>
          rw [Text.join, List.intersperse_cons_cons, List.flatten_cons, List.flatten_cons]
          exact (h item List.mem_cons_self).append ((row_own hseparator).append hrest)

/-! ### Lines -/

section lines

variable {α : Type} {isBreak : α → Bool}

/-- Without a line break there is one line. -/
theorem splitLines_of_no_break {l : List α} (h : ∀ c ∈ l, isBreak c = false) :
    splitLines isBreak l = [(l, none)] := by
  induction l with
  | nil => rfl
  | cons c rest ih =>
      rw [splitLines, ih fun c' hc' => h c' (List.mem_cons_of_mem _ hc')]
      simp [h c List.mem_cons_self]

/-- The first line ends at the first line break. -/
theorem splitLines_break {a b : List α} {c : α} (ha : ∀ d ∈ a, isBreak d = false)
    (hc : isBreak c = true) :
    splitLines isBreak (a ++ c :: b) = (a, some c) :: splitLines isBreak b := by
  induction a with
  | nil => simp [splitLines, hc]
  | cons d a ih =>
      rw [List.cons_append, splitLines, ih fun d' hd' => ha d' (List.mem_cons_of_mem _ hd')]
      simp [ha d List.mem_cons_self]

/-- A list has no line break, or a first one. -/
theorem no_break_or_first (isBreak : α → Bool) (l : List α) :
    (∀ c ∈ l, isBreak c = false) ∨
      ∃ a c b, l = a ++ c :: b ∧ (∀ d ∈ a, isBreak d = false) ∧ isBreak c = true := by
  induction l with
  | nil => exact .inl (by simp)
  | cons c rest ih =>
      by_cases hc : isBreak c = true
      · exact .inr ⟨[], c, rest, rfl, by simp, hc⟩
      · have hc' : isBreak c = false := by simpa using hc
        rcases ih with h | ⟨a, d, b, rfl, ha, hd⟩
        · exact .inl (by simpa [hc'] using h)
        · exact .inr ⟨c :: a, d, b, rfl, by simpa [hc'] using ha, hd⟩

end lines

theorem Pieces.splitLines {P : Glyph → Prop} {text : Text} (h : Pieces P Sgr text) :
    ∀ line ∈ splitLines Glyph.isBreak text, Pieces P Sgr line.1 ∧ ∀ g ∈ line.2, P g := by
  induction hn : text.length using Nat.strong_induction_on generalizing text with
  | _ n ih =>
      intro line hline
      rcases no_break_or_first Glyph.isBreak text with hnone | ⟨a, g, b, rfl, ha, hg⟩
      · rw [splitLines_of_no_break hnone, List.mem_singleton] at hline
        subst hline
        exact ⟨h, by simp⟩
      · have hbreak : g.char = '\n' := by simpa [Glyph.isBreak] using hg
        obtain ⟨hleft, hPg, hright⟩ := h.split fun s hs hmem => hs.no_break hmem hbreak
        rw [splitLines_break ha hg] at hline
        rcases List.mem_cons.mp hline with rfl | hline
        · exact ⟨hleft, by simpa using hPg⟩
        · refine ih b.length ?_ hright rfl line hline
          simp only [List.length_append, List.length_cons] at hn
          omega

/-- A row holds no line break. -/
theorem Pieces.no_break {text : Text} (h : Row text) : ∀ g ∈ text, g.char ≠ '\n' := by
  induction h with
  | nil => simp
  | @glyph g _ hg _ ih =>
      intro g' hg'
      rcases List.mem_cons.mp hg' with rfl | hg'
      · intro hbreak
        rw [Printable, hbreak] at hg
        revert hg
        decide
      · exact ih g' hg'
  | sequence hs _ ih =>
      intro g' hg'
      rcases List.mem_append.mp hg' with hg' | hg'
      · exact hs.no_break hg'
      · exact ih g' hg'

/-! ### Styles -/

section styles

variable {P : Glyph → Prop} {text : Text} (console : Console)

theorem Pieces.styled {code : String}
    (hcode : code.toList.all (fun c => c.isDigit || c = ';') = true) (h : Pieces P Sgr text) :
    Pieces P Sgr (console.styled code text) := by
  rw [Console.styled]
  split
  · apply Pieces.flatMap
    intro line hline
    obtain ⟨htext, hending⟩ := h.splitLines line hline
    apply Pieces.append
    · split
      · exact .nil
      · exact (Pieces.sequence (sgr_of_code hcode) htext).append (.of_sequence (sgr_of_code rfl))
    · exact .of_glyphs (by simpa using hending)
  · exact h

theorem Pieces.bold (h : Pieces P Sgr text) : Pieces P Sgr (console.bold text) :=
  h.styled console rfl

theorem Pieces.boldColored (color : Color) (h : Pieces P Sgr text) :
    Pieces P Sgr (console.boldColored color text) := by
  cases color <;> exact h.styled console rfl

theorem row_boldStr (value : Str) : Row (console.boldStr value) := (row_toText value).bold console

theorem row_boldCode (exitCode : ℤ) : Row (console.boldCode exitCode) := row_boldStr console _

theorem message_command (command : Str) : Message (console.command command) :=
  (message_ofStr command).bold console

theorem row_nothingMoreToDo (task : Str) : Row (console.nothingMoreToDo task) :=
  ((row_own rfl).append (row_boldStr console task)).append (row_own rfl)

theorem row_exitedUnexpectedly (exitCode : ℤ) : Row (console.exitedUnexpectedly exitCode) :=
  (row_own rfl).append (row_boldCode console exitCode)

theorem row_formatTaskFailedSummary (rendering : Rendering) (task : Str) (duration : ℕ) :
    Row (console.formatTaskFailedSummary rendering task duration) :=
  (((row_boldStr console task).append (row_own rfl)).append (row_toText _)).append (row_own rfl)

theorem row_formatTaskSummary (rendering : Rendering) (task : Str) (exitCode : ℤ) (duration : ℕ) :
    Row (console.formatTaskSummary rendering task exitCode duration) :=
  (((((row_boldStr console task).append (row_own rfl)).append
    ((row_toText _).boldColored console _)).append
    (row_own rfl)).append (row_toText _)).append (row_own rfl)

theorem row_cleaningUp (cause : Option CleanupCause) : Row (console.cleaningUp cause) := by
  cases cause with
  | none => exact row_own rfl
  | some cause =>
      refine ((row_own rfl).append ?_).append (row_own rfl)
      cases cause with
      | exited task exitCode | dependencyExited task exitCode =>
          exact ((row_boldStr console task).append (row_own rfl)).append
            (row_boldCode console exitCode)
      | imagePullFailed name | imageBuildFailed name | createFailed name | startFailed name
      | notHealthy name | failed name => exact (row_boldStr console name).append (row_own rfl)
      | setupCommandExited container index exitCode =>
          exact ((((row_boldStr console container).append (row_own rfl)).append
            (row_number index)).append
            (row_own rfl)).append (row_boldCode console exitCode)
      | setupCommandNotRun container index =>
          exact (((row_boldStr console container).append (row_own rfl)).append
            (row_number index)).append (row_own rfl)

end styles

/-! ### Lines that strings add -/

/-- The line breaks in a text that are from a string. -/
def breaks (text : Text) : ℕ := text.countP fun g => g.isBreak && !g.own

@[simp] theorem breaks_append (a b : Text) : breaks (a ++ b) = breaks a + breaks b :=
  List.countP_append

@[simp] theorem breaks_nil : breaks [] = 0 := rfl

theorem Pieces.breaks {text : Text} (h : Row text) : breaks text = 0 := by
  rw [Ui.breaks, List.countP_eq_zero]
  intro g hg
  simp [Glyph.isBreak, h.no_break g hg]

theorem breaks_flatMap {α : Type} {items : List α} {f : α → Text} (h : ∀ a, breaks (f a) = 0) :
    breaks (items.flatMap f) = 0 := by
  induction items with
  | nil => rfl
  | cons a items ih => rw [List.flatMap_cons, breaks_append, h, ih]

theorem breaks_own (literal : String) : breaks (own literal) = 0 := by
  rw [breaks, List.countP_eq_zero]
  intro g hg
  obtain ⟨c, -, rfl⟩ := List.mem_map.mp hg
  simp

theorem breaks_escapeControls (value : Str) :
    breaks (Text.ofStr value) = value.countP (· = '\n') := by
  rw [Text.ofStr, escapeControls]
  induction value with
  | nil => rfl
  | cons c value ih =>
      rw [List.flatMap_cons, List.map_append, breaks_append, ih, List.countP_cons, Nat.add_comm]
      congr 1
      by_cases hc : c = '\n'
      · subst hc
        rfl
      · have hc' : decide (c = '\n') = false := by simpa using hc
        simp only [hc', Bool.false_eq_true, if_false, breaks, List.countP_eq_zero]
        intro g hg
        obtain ⟨e, he, rfl⟩ := List.mem_map.mp hg
        suffices e ≠ '\n' by simp [Glyph.isBreak, this]
        rintro rfl
        split_ifs at he with hcontrol
        · have := escapeDebug_printable c '\n' he
          revert this
          decide
        · exact hc (List.mem_singleton.mp he).symm

/-- A split adds no line break and loses none. -/
theorem breaks_splitLines {f : Text → Text} (hf : ∀ line, breaks (f line) = breaks line)
    (text : Text) :
    breaks ((splitLines Glyph.isBreak text).flatMap fun line =>
      f line.1 ++ line.2.toList) = breaks text := by
  induction hn : text.length using Nat.strong_induction_on generalizing text with
  | _ n ih =>
      rcases no_break_or_first Glyph.isBreak text with hnone | ⟨a, g, b, rfl, ha, hg⟩
      · simp [splitLines_of_no_break hnone, hf]
      · have hb :=
          ih b.length (by simp only [List.length_append, List.length_cons] at hn; omega) b rfl
        rw [splitLines_break ha hg, List.flatMap_cons, breaks_append, hb,
          breaks_append, hf, breaks_append, ← List.singleton_append, breaks_append]
        simp only [Option.toList_some]
        omega

theorem breaks_styled (console : Console) (code : String) (text : Text) :
    breaks (console.styled code text) = breaks text := by
  rw [Console.styled]
  split
  · refine breaks_splitLines
      (f := fun line => if line = [] then [] else sgr code ++ line ++ sgr "0") ?_ text
    intro line
    split
    · next h => rw [h]
    · rw [breaks_append, breaks_append, sgr, sgr, breaks_own, breaks_own]
      omega
  · rfl

theorem breaks_command (console : Console) (command : Str) :
    breaks (console.command command) = command.countP (· = '\n') := by
  rw [Console.command, Console.bold, breaks_styled, breaks_escapeControls]

/-! ### Writes -/

theorem lineEndings_append {s : Text} (hs : ∀ g ∈ s, g.char ≠ '\n') (afterReturn : Bool)
    (text : Text) :
    ∃ afterReturn', lineEndings afterReturn (s ++ text) = s ++ lineEndings afterReturn' text := by
  induction s generalizing afterReturn with
  | nil => exact ⟨afterReturn, rfl⟩
  | cons g s ih =>
      obtain ⟨afterReturn', heq⟩ :=
        ih (fun g' hg' => hs g' (List.mem_cons_of_mem _ hg')) (decide (g.char = '\r'))
      exact ⟨afterReturn', by simp [lineEndings, hs g List.mem_cons_self, heq]⟩

theorem own_no_break {literal : String} (h : literal.toList.all (· ≠ '\n') = true) {g : Glyph}
    (hg : g ∈ own literal) :
    g.char ≠ '\n' := by
  obtain ⟨c, hc, rfl⟩ := List.mem_map.mp hg
  simpa using List.all_eq_true.mp h c hc

theorem Cursor.no_break {s : Text} (h : Cursor s) {g : Glyph} (hg : g ∈ s) : g.char ≠ '\n' := by
  rcases h with rfl | rfl | ⟨n, rfl⟩
  · exact own_no_break rfl hg
  · exact own_no_break rfl hg
  · have hn : (toString n).toList.all (· ≠ '\n') = true := by
      rw [List.all_eq_true]
      intro c hc
      have := toString_digits n c hc
      simp only [decide_eq_true_eq]
      rintro rfl
      revert this
      decide
    refine own_no_break ?_ hg
    rw [String.toList_append, String.toList_append, List.all_append, List.all_append, hn]
    rfl

theorem Pieces.lineEndings {text : Text} (h : Clean text) (afterReturn : Bool) :
    Clean (lineEndings afterReturn text) := by
  induction h generalizing afterReturn with
  | nil => exact .nil
  | glyph hg _ ih =>
      rw [Ui.lineEndings]
      apply Pieces.append
      · split
        · exact .of_sequence (.inr (.inl rfl))
        · exact .nil
      · exact .glyph hg (ih _)
  | @sequence s text hs _ ih =>
      have hbreak : ∀ g ∈ s, g.char ≠ '\n' := by
        intro g hg
        rcases hs with hs | hs
        · exact hs.no_break hg
        · exact hs.no_break hg
      obtain ⟨afterReturn', heq⟩ := lineEndings_append hbreak afterReturn text
      rw [heq]
      exact .sequence hs (ih _)

theorem breaks_lineEndings (afterReturn : Bool) (text : Text) :
    breaks (lineEndings afterReturn text) = breaks text := by
  induction text generalizing afterReturn with
  | nil => rfl
  | cons g text ih =>
      have hlead :
          breaks (if g.char = '\n' ∧ afterReturn = false then [⟨'\r', true⟩] else []) = 0 := by
        split <;> rfl
      rw [lineEndings, breaks_append, hlead, ← List.singleton_append, breaks_append,
        ih, ← breaks_append, List.singleton_append]
      omega

section writes

variable (console : Console) (stream : Stream)

theorem Pieces.print {text : Text} (h : Clean text) : Clean (console.print stream text).text := by
  rw [Console.print, Console.written]
  split
  · exact h.lineEndings false
  · exact h

theorem breaks_print (text : Text) : breaks (console.print stream text).text = breaks text := by
  rw [Console.print, Console.written]
  split
  · exact breaks_lineEndings false text
  · rfl

theorem Pieces.println {line : Text} (h : Message line) :
    Clean (console.println stream line).text := by
  refine Pieces.print console stream ?_
  exact h.clean.append (.glyph (fun _ => .inl rfl) .nil)

theorem breaks_println (line : Text) : breaks (console.println stream line).text = breaks line := by
  rw [Console.println, Console.printlnEnding, breaks_print, breaks_append]
  rfl

end writes

/-- The line breaks that strings add to what is written. -/
def addedBreaks (writes : List Write) : ℕ := (writes.map fun write => breaks write.text).sum

@[simp] theorem addedBreaks_nil : addedBreaks [] = 0 := rfl

@[simp] theorem addedBreaks_append (a b : List Write) :
    addedBreaks (a ++ b) = addedBreaks a + addedBreaks b := by
  simp [addedBreaks]

@[simp] theorem addedBreaks_singleton (write : Write) :
    addedBreaks [write] = breaks write.text := by
  simp [addedBreaks]

/-! ### Events -/

/-- The text of a notice, a warning or an error is made of a string, as whoever posts it makes
it. -/
def TaskEvent.Composed : TaskEvent → Prop
  | .notice message | .warning message => ∃ value, message = toText value
  | .error message => ∃ value, message = Text.ofStr value ∨ message = toText value
  | _ => True

/-- The event passes a program's own output on. -/
def TaskEvent.isOutput : TaskEvent → Bool
  | .containerOutput .. | .setupCommandOutput .. => true
  | _ => false

/-- The line breaks in the command or the error message of an event. -/
def TaskEvent.laidOut : TaskEvent → ℕ
  | .runningSetupCommand _ command _ _ _ => command.countP (· = '\n')
  | .runningTaskContainer _ (some command) => command.countP (· = '\n')
  | .error message => breaks message
  | _ => 0

theorem TaskEvent.Composed.printStderrClass {event : TaskEvent} (h : event.Composed)
    (console : Console) {write : Write} (hwrite : console.printStderrClass event = some write) :
    Clean write.text ∧ breaks write.text ≤ event.laidOut := by
  cases event with
  | error message =>
      obtain rfl := Option.some.inj hwrite
      have hmessage : Message message := by
        obtain ⟨value, rfl | rfl⟩ := h
        · exact message_ofStr value
        · exact (row_toText value).message
      have hmark : Row (console.boldColored .red (own "Error:") ++ own " ") :=
        ((row_own rfl).boldColored console .red).append (row_own rfl)
      constructor
      · exact (hmark.message.append hmessage).println console .stderr
      · rw [Console.error, breaks_println, breaks_append, hmark.breaks]
        simp [TaskEvent.laidOut]
  | warning message =>
      obtain rfl := Option.some.inj hwrite
      obtain ⟨value, rfl⟩ := h
      have hrow : Row (console.boldColored .yellow (own "Warning:") ++ own " " ++ toText value) :=
        (((row_own rfl).boldColored console .yellow).append (row_own rfl)).append (row_toText value)
      constructor
      · exact hrow.message.println console .stderr
      · rw [Console.warning, breaks_println, hrow.breaks]
        exact Nat.zero_le _
  | notice message =>
      obtain rfl := Option.some.inj hwrite
      obtain ⟨value, rfl⟩ := h
      constructor
      · exact (row_toText value).message.println console .stderr
      · rw [Console.notice, breaks_println, (row_toText value).breaks]
        exact Nat.zero_le _
  | _ => cases hwrite

end Ratect.Ui
