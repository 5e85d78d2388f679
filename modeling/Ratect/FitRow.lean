import Ratect.FancyLogger
import Ratect.ConsoleSafety

/-! # A row of the live display

What `fit_row` makes of a text of printable characters, line breaks, tabs and whole SGR escapes
(`ui/fancy.rs`): its width, its visible characters, and the style it leaves the terminal in.

Every scan reads an escape as a whole (`visible_sgr`, `clipFrom_sgr`, `styleFrom_sgr`), so the loop
of `clip_to_width` comes to a prefix of the visible characters (`clipFrom_kept`).  A zero-width
character fits where no column is left to keep: in one or two columns it is kept, and the ellipsis
after it is not cut.  That aside every row fits (`fitsRow_iff`). -/

namespace Ratect.Ui.Fancy

/-! ### What a terminal shows -/

/-- An SGR escape: `\x1b[`, its parameters, `m`. -/
def IsSgr (s : Text) : Prop :=
  ∃ parameters : Str, (∀ c ∈ parameters, '0' ≤ c ∧ c ≤ '?') ∧
    s.map Glyph.char = '\x1b' :: '[' :: (parameters ++ ['m'])

/-- A glyph that is no control character, or a line break or a tab. -/
def Legible (g : Glyph) : Prop :=
  isControl g.char = true → g.char = '\n' ∨ g.char = '\r' ∨ g.char = '\t'

/-- A text whose escapes are whole SGR escapes. -/
abbrev Spans : Text → Prop := Pieces (fun g => g.char ≠ '\x1b') IsSgr

/-- The characters outside escape sequences, from in one or out of one. -/
def visibleFrom : Bool → Text → Str
  | _, [] => []
  | true, g :: rest => visibleFrom (!g.char.isAlpha) rest
  | false, g :: rest =>
      if g.char = '\x1b' then visibleFrom true rest else g.char :: visibleFrom false rest

def visible (text : Text) : Str := visibleFrom false text

/-- The style that a text leaves a terminal in, where an SGR escape does to it what `apply` says of
its parameters; what is read of an escape so far, if in one. -/
def styleFrom {σ : Type} (apply : Str → σ → σ) : Option Str → σ → Text → σ
  | _, style, [] => style
  | some code, style, g :: rest =>
      if g.char.isAlpha then styleFrom
        apply none (if g.char = 'm' then apply (code.drop 1) style else style) rest
      else styleFrom apply (some (code ++ [g.char])) style rest
  | none, style, g :: rest =>
      if g.char = '\x1b' then styleFrom apply (some []) style rest
      else styleFrom apply none style rest

/-- Line breaks and tabs are spaces. -/
def flatten (text : Text) : Text := text.map fun g => { g with char := flat g.char }

/-! ### Whole escapes -/

theorem parameter_not_alpha {c : Char} (h : '0' ≤ c ∧ c ≤ '?') : c.isAlpha = false := by
  have h0 : '0'.val.toNat = 48 := rfl
  have hlast : '?'.val.toNat = 63 := rfl
  have hA : 'A'.val.toNat = 65 := rfl
  have ha : 'a'.val.toNat = 97 := rfl
  simp only [Char.le_def, Char.isAlpha, Char.isUpper, Char.isLower, Bool.or_eq_false_iff,
    Bool.and_eq_false_iff, decide_eq_false_iff_not, UInt32.le_iff_toNat_le, ge_iff_le] at *
  omega

/-- An escape, glyph by glyph. -/
theorem IsSgr.glyphs {s : Text} (h : IsSgr s) : ∃ first code last, s = first :: code ++ [last] ∧
    first.char = '\x1b' ∧ last.char = 'm' ∧ (∀ g ∈ code, g.char.isAlpha = false ∧ g.char ≠ '\x1b') ∧
      ∃ parameters : Str,
        code.map Glyph.char = '[' :: parameters ∧ ∀ c ∈ parameters, '0' ≤ c ∧ c ≤ '?' := by
  obtain ⟨parameters, hparameters, hs⟩ := h
  cases s with
  | nil => cases hs
  | cons first s =>
      obtain ⟨hfirst, hs⟩ := List.cons.inj hs
      have hne : s ≠ [] := by
        rintro rfl
        cases hs
      obtain ⟨code, last, rfl⟩ : ∃ code last, s = code ++ [last] :=
        ⟨s.dropLast, s.getLast hne, (List.dropLast_append_getLast hne).symm⟩
      have hsplit : code.map Glyph.char ++ [last.char] = ('[' :: parameters) ++ ['m'] := by
        rw [← List.cons_append] at hs
        rw [← hs, List.map_append]
        rfl
      obtain ⟨hcode, hlast⟩ := List.append_inj' hsplit rfl
      refine ⟨first, code, last, rfl, hfirst, (List.cons.inj hlast).1, ?_,
        parameters, hcode, hparameters⟩
      intro g hg
      have hmem : g.char ∈ '[' :: parameters := hcode ▸ List.mem_map_of_mem hg
      rcases List.mem_cons.mp hmem with hopen | hparameter
      · rw [hopen]
        decide
      · refine ⟨parameter_not_alpha (hparameters _ hparameter), ?_⟩
        intro hescape
        have hle := (hparameters _ hparameter).1
        rw [hescape] at hle
        exact absurd hle (by decide)

theorem visibleFrom_code {code : Text} (hcode : ∀ g ∈ code, g.char.isAlpha = false) (text : Text) :
    visibleFrom true (code ++ text) = visibleFrom true text := by
  induction code with
  | nil => rfl
  | cons g code ih =>
      rw [List.cons_append, visibleFrom, hcode g List.mem_cons_self]
      exact ih fun g' hg' => hcode g' (List.mem_cons_of_mem _ hg')

/-- An escape shows nothing. -/
theorem visible_sgr {s : Text} (h : IsSgr s) (text : Text) :
    visible (s ++ text) = visible text := by
  obtain ⟨first, code, last, rfl, hfirst, hlast, hcode, -⟩ := h.glyphs
  rw [visible, List.append_assoc, List.cons_append, visibleFrom, if_pos hfirst,
    visibleFrom_code fun g hg => (hcode g hg).1, List.singleton_append, visibleFrom, hlast]
  rfl

theorem visible_cons {g : Glyph} (hg : g.char ≠ '\x1b') (text : Text) :
    visible (g :: text) = g.char :: visible text := by
  rw [visible, visibleFrom, if_neg hg]
  rfl

theorem visible_append {a : Text} (ha : Spans a) (b : Text) :
    visible (a ++ b) = visible a ++ visible b := by
  induction ha with
  | nil => rfl
  | glyph hg _ ih => rw [List.cons_append, visible_cons hg, visible_cons hg, ih, List.cons_append]
  | sequence hs _ ih => rw [List.append_assoc, visible_sgr hs, visible_sgr hs, ih]

/-- The display width is that of what is visible. -/
theorem displayWidthFrom_eq (charWidth : Char → ℕ) (inEscape : Bool) (text : Text) :
    displayWidthFrom charWidth inEscape text = ((visibleFrom inEscape text).map charWidth).sum := by
  induction text generalizing inEscape with
  | nil => cases inEscape <;> rfl
  | cons g rest ih =>
      cases inEscape with
      | true => exact ih _
      | false =>
          rw [displayWidthFrom, visibleFrom]
          split
          · exact ih true
          · rw [ih, List.map_cons, List.sum_cons]

theorem displayWidth_eq (charWidth : Char → ℕ) (text : Text) :
    displayWidth charWidth text = ((visible text).map charWidth).sum :=
      displayWidthFrom_eq charWidth false text

section style

variable {σ : Type} {apply : Str → σ → σ}

theorem styleFrom_code {code : Text} (hcode : ∀ g ∈ code, g.char.isAlpha = false) (read : Str)
    (style : σ) (text : Text) : styleFrom apply (some read) style (code ++ text) =
      styleFrom apply (some (read ++ code.map Glyph.char)) style text := by
  induction code generalizing read with
  | nil => simp
  | cons g code ih =>
      rw [List.cons_append, styleFrom, if_neg (Bool.eq_false_iff.mp (hcode g List.mem_cons_self)),
        ih fun g' hg' => hcode g' (List.mem_cons_of_mem _ hg')]
      simp

/-- An escape does what its parameters say. -/
theorem styleFrom_sgr {s : Text} (h : IsSgr s) :
    ∃ parameters : Str, (∀ c ∈ parameters, '0' ≤ c ∧ c ≤ '?') ∧
    s.map Glyph.char = '\x1b' :: '[' :: (parameters ++ ['m']) ∧ ∀ (style : σ) (text : Text),
      styleFrom apply none style (s ++ text) =
        styleFrom apply none (apply parameters style) text := by
  obtain ⟨first, code, last, rfl, hfirst, hlast, hcode, parameters, hparameters, hin⟩ := h.glyphs
  refine ⟨parameters, hin, ?_, ?_⟩
  · rw [List.map_append, List.map_cons, hfirst, hparameters, List.map_singleton, hlast]
    rfl
  · intro style text
    have halpha : last.char.isAlpha = true := by
      rw [hlast]
      decide
    rw [List.append_assoc, List.cons_append, styleFrom, if_pos hfirst,
      styleFrom_code fun g hg => (hcode g hg).1, List.singleton_append, styleFrom, if_pos halpha,
        if_pos hlast, hparameters]
    rfl

theorem styleFrom_append {a : Text} (ha : Spans a) (style : σ) (b : Text) :
    styleFrom apply none style (a ++ b) =
      styleFrom apply none (styleFrom apply none style a) b := by
  induction ha generalizing style with
  | nil => rfl
  | @glyph g text hg _ ih =>
      rw [List.cons_append, styleFrom, if_neg hg, styleFrom, if_neg hg]
      exact ih style
  | @sequence s text hs _ ih =>
      obtain ⟨parameters, -, -, happly⟩ := styleFrom_sgr hs
      rw [List.append_assoc, happly, happly, ih]

end style

/-! ### The style at the end -/

theorem lastEscape_code {code : Text} (hcode : ∀ g ∈ code, g.char ≠ '\x1b') (text : Text) :
    lastEscape (code ++ text) = lastEscape text := by
  induction code with
  | nil => rfl
  | cons g code ih =>
      rw [List.cons_append, lastEscape, ih fun g' hg' => hcode g' (List.mem_cons_of_mem _ hg')]
      cases lastEscape text with
      | none => exact if_neg (hcode g List.mem_cons_self)
      | some escape => rfl

/-- An escape is the last one unless there is another after it. -/
theorem lastEscape_sgr {s : Text} (h : IsSgr s) (text : Text) :
    lastEscape (s ++ text) = some ((lastEscape text).getD (s ++ text)) := by
  obtain ⟨first, code, last, rfl, hfirst, hlast, hcode, -⟩ := h.glyphs
  have hrest : lastEscape (code ++ ([last] ++ text)) = lastEscape text := by
    rw [← List.append_assoc, lastEscape_code]
    intro g hg
    rcases List.mem_append.mp hg with hg | hg
    · exact (hcode g hg).2
    · rw [List.mem_singleton.mp hg, hlast]
      decide
  rw [List.append_assoc, List.cons_append, lastEscape, hrest]
  cases lastEscape text with
  | none => exact if_pos hfirst
  | some escape => rfl

section closed

variable {σ : Type} {apply : Str → σ → σ} {plain : σ}

/-- A text without an escape leaves the style as it is, and one whose last escape is a reset leaves
none. -/
theorem styleFrom_lastEscape (hreset : ∀ style, apply ['0'] style = plain) {text : Text}
    (h : Spans text) :
    (lastEscape text = none → ∀ style, styleFrom apply none style text = style) ∧
      ∀ escape, lastEscape text = some escape → (escape.map Glyph.char).take 4 = "\x1b[0m".toList →
        ∀ style, styleFrom apply none style text = plain := by
  induction h with
  | nil => exact ⟨fun _ _ => rfl, fun _ h => (by cases h)⟩
  | @glyph g text hg _ ih =>
      have hlast : lastEscape (g :: text) = lastEscape text :=
        @lastEscape_code [g] (fun g' hg' => List.mem_singleton.mp hg' ▸ hg) text
      have hstyle : ∀ style,
          styleFrom apply none style (g :: text) = styleFrom apply none style text := by
        intro style
        rw [styleFrom, if_neg hg]
      rw [hlast]
      refine ⟨fun hnone style => (hstyle style).trans (ih.1 hnone style), ?_⟩
      exact fun escape hescape htake style => (hstyle style).trans (ih.2 escape hescape htake style)
  | @sequence s text hs _ ih =>
      obtain ⟨parameters, hparameters, hchars, happly⟩ := @styleFrom_sgr σ apply s hs
      rw [lastEscape_sgr hs]
      refine ⟨fun hnone => (by cases hnone), ?_⟩
      rintro escape ⟨⟩ htake style
      rw [happly]
      cases hlater : lastEscape text with
      | some later =>
          rw [hlater] at htake
          exact ih.2 later hlater htake _
      | none =>
          rw [hlater, Option.getD_none, List.map_append, hchars] at htake
          have hzero : parameters = ['0'] := by
            cases parameters with
            | nil => cases htake
            | cons c parameters =>
                cases parameters with
                | nil =>
                    obtain ⟨rfl, -⟩ : c = '0' ∧ True := by simpa using htake
                    rfl
                | cons d parameters =>
                    obtain ⟨-, rfl⟩ : c = '0' ∧ d = 'm' := by simpa using htake
                    exact absurd (hparameters 'm' (by simp)).2 (by decide)
          rw [ih.1 hlater, hzero, hreset]

end closed

/-! ### The loop of `clip_to_width` -/

section clip

variable {charWidth : Char → ℕ} {keep : ℕ}

theorem clipFrom_code {code : Text} (hcode : ∀ g ∈ code, g.char.isAlpha = false) (clip : Clip)
    (text : Text) :
    clipFrom charWidth keep true clip (code ++ text) =
      clipFrom charWidth keep true { clip with held := clip.held ++ code } text := by
  induction code generalizing clip with
  | nil => simp
  | cons g code ih =>
      rw [List.cons_append, clipFrom, hcode g List.mem_cons_self, Bool.not_false,
        ih fun g' hg' => hcode g' (List.mem_cons_of_mem _ hg')]
      simp

/-- An escape is held whole. -/
theorem clipFrom_sgr {s : Text} (h : IsSgr s) (clip : Clip) (text : Text) :
    clipFrom charWidth keep false clip (s ++ text) =
      clipFrom charWidth keep false { clip with held := clip.held ++ s } text := by
  obtain ⟨first, code, last, rfl, hfirst, hlast, hcode, -⟩ := h.glyphs
  have halpha : last.char.isAlpha = true := by
    rw [hlast]
    decide
  rw [List.append_assoc, List.cons_append, clipFrom, if_pos hfirst,
    clipFrom_code fun g hg => (hcode g hg).1, List.singleton_append, clipFrom,
      halpha, Bool.not_true]
  simp

/-- What the loop has written is a part of the text, from its start on. -/
theorem clipFrom_written (inEscape : Bool) (clip : Clip) (text : Text) :
    (clipFrom charWidth keep inEscape clip text).out ++
      (clipFrom charWidth keep inEscape clip text).held <+:
      clip.out ++ clip.held ++ text := by
  induction text generalizing inEscape clip with
  | nil =>
      cases inEscape <;> simp [clipFrom]
  | cons g rest ih =>
      cases inEscape with
      | true =>
          have := ih (!g.char.isAlpha) { clip with held := clip.held ++ [g] }
          rw [clipFrom]
          simpa using this
      | false =>
          rw [clipFrom]
          split
          · have := ih true { clip with held := clip.held ++ [g] }
            simpa using this
          · split
            · exact List.prefix_append _ _
            · have :=
                ih false ⟨clip.out ++ clip.held ++ [g], [], true, clip.keptWidth + charWidth g.char⟩
              simpa using this

/-- Between two characters: what is written is whole, and what is held are escapes only. -/
structure Clip.Whole (clip : Clip) : Prop where
  out : Spans clip.out
  held : Spans clip.held
  hidden : visible clip.held = []

/-- The loop has kept some characters of a text. -/
structure Kept (charWidth : Char → ℕ) (keep : ℕ) (clip result : Clip) (text : Text)
    (kept : Str) : Prop where
  whole : result.Whole
  front : kept <+: visible text
  out : visible result.out = visible clip.out ++ kept
  keptAny : result.keptAny = (clip.keptAny || !kept.isEmpty)
  within : clip.keptWidth ≤ keep → clip.keptWidth + (kept.map charWidth).sum ≤ keep
  stopped : kept = [] → ∀ c ∈ (visible text).head?, keep < clip.keptWidth + charWidth c

theorem clipFrom_kept {text : Text} (h : Spans text) {clip : Clip} (hclip : clip.Whole) :
    ∃ kept, Kept charWidth keep clip (clipFrom charWidth keep false clip text) text kept := by
  induction h generalizing clip with
  | nil =>
      exact ⟨[], hclip, List.prefix_refl _, (List.append_nil _).symm, by simp [clipFrom], by simp,
      by simp [visible, visibleFrom]⟩
  | @glyph g text hg _ ih =>
      rw [clipFrom, if_neg hg]
      split
      · next hwide =>
          refine ⟨[], hclip, List.nil_prefix, (List.append_nil _).symm, by simp, by simp, ?_⟩
          intro _ c hc
          rw [visible_cons hg] at hc
          cases hc
          exact hwide
      · next hfits =>
          have hone : Spans [g] := .glyph hg .nil
          have hnext : Clip.Whole ⟨clip.out ++ clip.held ++ [g], [], true,
              clip.keptWidth + charWidth g.char⟩ :=
            ⟨(hclip.out.append hclip.held).append hone, .nil, rfl⟩
          obtain ⟨kept, hkept⟩ := ih hnext
          refine ⟨g.char :: kept, hkept.whole, ?_, ?_, ?_, ?_, ?_⟩
          · rw [visible_cons hg]
            exact List.cons_prefix_cons.mpr ⟨rfl, hkept.front⟩
          · rw [hkept.out, visible_append (hclip.out.append hclip.held),
              visible_append hclip.out, hclip.hidden, List.append_nil,
              visible_cons hg, List.append_assoc]
            rfl
          · rw [hkept.keptAny]
            simp
          · intro _
            have hwithin := hkept.within (not_lt.mp hfits)
            rw [List.map_cons, List.sum_cons, ← Nat.add_assoc]
            exact hwithin
          · intro hnil
            cases hnil
  | @sequence s text hs _ ih =>
      have hsgr : Spans s := .of_sequence hs
      have hnext : Clip.Whole { clip with held := clip.held ++ s } := by
        refine ⟨hclip.out, hclip.held.append hsgr, ?_⟩
        rw [visible_append hclip.held, hclip.hidden, ← List.append_nil s, visible_sgr hs]
        rfl
      obtain ⟨kept, hkept⟩ := ih hnext
      rw [clipFrom_sgr hs]
      exact ⟨kept, hkept.whole, by
        rw [visible_sgr hs]; exact hkept.front, hkept.out, hkept.keptAny, hkept.within,
        by rw [visible_sgr hs]; exact hkept.stopped⟩

end clip

/-! ### The row -/

/-- A glyph that keeps to its row. -/
def InRow (g : Glyph) : Prop := g.char ≠ '\n' ∧ g.char ≠ '\r' ∧ g.char ≠ '\t'

instance (g : Glyph) : Decidable (InRow g) := inferInstanceAs (Decidable (_ ∧ _ ∧ _))

theorem inRow_own {literal : String} (h : (own literal).all (fun g => decide (InRow g)) = true) :
    ∀ g ∈ own literal, InRow g := fun g hg => of_decide_eq_true (List.all_eq_true.mp h g hg)

theorem inRow_flatten (text : Text) : ∀ g ∈ flatten text, InRow g := by
  intro g hg
  obtain ⟨g', -, rfl⟩ := List.mem_map.mp hg
  unfold InRow flat
  dsimp only
  split
  · decide
  · next hflat =>
      rw [not_or, not_or] at hflat
      exact hflat

/-- Flattened, a text of legible glyphs and SGR escapes is one of whole escapes. -/
theorem spans_flatten {text : Text} (h : Pieces Legible IsSgr text) : Spans (flatten text) := by
  induction h with
  | nil => exact .nil
  | @glyph g text hg _ ih =>
      refine .glyph ?_ ih
      show flat g.char ≠ '\x1b'
      rw [flat]
      split
      · decide
      · next hflat =>
          intro hescape
          exact hflat (hg (by rw [hescape]; decide))
  | @sequence s text hs _ ih =>
      obtain ⟨parameters, hparameters, hchars⟩ := hs
      have hsame : (flatten s).map Glyph.char = (s.map Glyph.char).map flat := by
        rw [flatten, List.map_map, List.map_map]
        rfl
      have hflat : parameters.map flat = parameters := by
        conv_rhs => rw [← List.map_id parameters]
        apply List.map_congr_left
        intro c hc
        rw [flat, if_neg]
        · rfl
        · rintro (rfl | rfl | rfl)
          · exact absurd (hparameters _ hc).1 (by decide)
          · exact absurd (hparameters _ hc).1 (by decide)
          · exact absurd (hparameters _ hc).1 (by decide)
      rw [flatten, List.map_append]
      refine .sequence ⟨parameters, hparameters, ?_⟩ ih
      show (flatten s).map Glyph.char = _
      rw [hsame, hchars, List.map_cons, List.map_cons, List.map_append, hflat]
      rfl

/-- The program's own styles are SGR escapes. -/
theorem isSgr_of_sgr {s : Text} (h : Sgr s) : IsSgr s := by
  obtain ⟨code, hcode, rfl⟩ := h
  refine ⟨code, ?_, ?_⟩
  · intro c hc
    rcases hcode c hc with hdigit | rfl
    · rw [Char.isDigit, Bool.and_eq_true, decide_eq_true_eq, decide_eq_true_eq] at hdigit
      exact ⟨hdigit.1, le_trans (show c ≤ '9' from hdigit.2) (by decide)⟩
    · decide
  · rw [List.map_map]
    exact List.map_id _

/-- A text without escapes shows what it is. -/
theorem visible_plain {text : Text} (h : ∀ g ∈ text, g.char ≠ '\x1b') :
    visible text = text.map Glyph.char := by
  induction text with
  | nil => rfl
  | cons g text ih =>
      rw [visible_cons (h g List.mem_cons_self),
        ih fun g' hg' => h g' (List.mem_cons_of_mem _ hg'), List.map_cons]

theorem ellipsis_plain : ∀ g ∈ own "...", g.char ≠ '\x1b' := by
  intro g hg
  obtain ⟨c, hc, rfl⟩ := List.mem_map.mp hg
  rw [List.eq_of_mem_replicate (show c ∈ List.replicate 3 '.' from hc)]
  decide

theorem visible_ellipsis (n : ℕ) : visible ((own "...").take n) = "...".toList.take n := by
  rw [visible_plain fun g hg => ellipsis_plain g (List.mem_of_mem_take hg), List.map_take]
  rfl

/-- What `clip_to_width` has before the reset. -/
def beforeReset (charWidth : Char → ℕ) (text : Text) (width : ℕ) : Text :=
  let clip := clipFrom charWidth (width - 3) false ⟨[], [], false, 0⟩ text
  if clip.keptAny then clip.out ++ own "..." ++ clip.held
  else clip.out ++ clip.held ++ (own "...").take (min width 3)

/-- The reset, unless the last escape is one. -/
def withReset (out : Text) : Text :=
  match lastEscape out with
  | some escape => if (escape.map (·.char)).take 4 = "\x1b[0m".toList then out else out ++ sgr "0"
  | none => out

section row

variable {charWidth : Char → ℕ} {text : Text} {width : ℕ}

/-- What is expected of a row: it fits and keeps to itself; a text that fits is only flattened; and
of one that does not, some of the first characters are left before the ellipsis, and no style after
it. -/
structure FitsRow (charWidth : Char → ℕ) (text : Text) (width : ℕ) : Prop where
  within : displayWidth charWidth (fitRow charWidth text (some width)) ≤ width
  inRow : ∀ g ∈ fitRow charWidth text (some width), InRow g
  unchanged : displayWidth charWidth (flatten text) ≤ width →
    fitRow charWidth text (some width) = flatten text
  clipped : width < displayWidth charWidth (flatten text) → ∃ kept,
    kept <+: visible (flatten text) ∧
    visible (fitRow charWidth text (some width)) = kept ++ "...".toList.take width
  closed : width < displayWidth charWidth (flatten text) →
    ∀ (σ : Type) (apply : Str → σ → σ) (plain : σ),
    (∀ style, apply ['0'] style = plain) →
      styleFrom apply none plain (fitRow charWidth text (some width)) = plain

theorem fitRow_clipped (hwide : width < displayWidth charWidth (flatten text)) :
    fitRow charWidth text (some width) =
      withReset (beforeReset charWidth (flatten text) width) := by
  rw [fitRow, clipToWidth]
  exact if_neg (not_le.mpr hwide)

/-- The reset shows nothing and leaves no style. -/
theorem withReset_spec {out : Text} (hout : Spans out) (hrow : ∀ g ∈ out, InRow g) :
    visible (withReset out) = visible out ∧ (∀ g ∈ withReset out, InRow g) ∧
      ∀ (σ : Type) (apply : Str → σ → σ) (plain : σ), (∀ style, apply ['0'] style = plain) →
        styleFrom apply none plain (withReset out) = plain := by
  unfold withReset
  have hsgr : IsSgr (sgr "0") := isSgr_of_sgr (sgr_of_code rfl)
  cases hlast : lastEscape out with
  | none =>
      exact ⟨rfl, hrow, fun σ apply plain hreset =>
        (styleFrom_lastEscape hreset hout).1 hlast plain⟩
  | some escape =>
      dsimp only
      split
      · next htake =>
          exact ⟨rfl, hrow, fun σ apply plain hreset =>
            (styleFrom_lastEscape hreset hout).2 escape hlast htake plain⟩
      · refine ⟨?_, ?_, ?_⟩
        · rw [visible_append hout, ← List.append_nil (sgr "0"), visible_sgr hsgr]
          exact List.append_nil _
        · intro g hg
          rcases List.mem_append.mp hg with hg | hg
          · exact hrow g hg
          · exact inRow_own (by decide) g hg
        · intro σ apply plain hreset
          rw [styleFrom_append hout]
          exact hreset _

/-- Before the reset: the characters that were kept, and the ellipsis, cut only if none was. -/
theorem beforeReset_spec {flattened : Text} (hspans : Spans flattened)
    (hrow : ∀ g ∈ flattened, InRow g) :
    Spans (beforeReset charWidth flattened width) ∧
      (∀ g ∈ beforeReset charWidth flattened width, InRow g) ∧
      ∃ kept, kept <+: visible flattened ∧ (kept.map charWidth).sum ≤ width - 3 ∧
        visible (beforeReset charWidth flattened width) =
          kept ++ "...".toList.take (if kept = [] then width else 3) ∧
        (kept = [] → ∀ c ∈ (visible flattened).head?, width - 3 < charWidth c) := by
  have hstart : Clip.Whole ⟨[], [], false, 0⟩ := ⟨.nil, .nil, rfl⟩
  obtain ⟨kept, hkept⟩ := @clipFrom_kept charWidth (width - 3) flattened hspans _ hstart
  have hwritten := @clipFrom_written charWidth (width - 3) false ⟨[], [], false, 0⟩ flattened
  have hin : ∀ g, g ∈ (clipFrom charWidth (width - 3) false ⟨[], [], false, 0⟩ flattened).out ∨
      g ∈ (clipFrom charWidth (width - 3) false ⟨[], [], false, 0⟩ flattened).held → InRow g := by
    intro g hg
    exact hrow g (by simpa using hwritten.subset (List.mem_append.mpr hg))
  have hdots : Spans (own "...") := .of_glyphs ellipsis_plain
  have hcut : Spans ((own "...").take (min width 3)) :=
    .of_glyphs fun g hg => ellipsis_plain g (List.mem_of_mem_take hg)
  have hdotsRow : ∀ g ∈ own "...", InRow g := inRow_own (by decide)
  have hout : visible (clipFrom charWidth (width - 3) false ⟨[], [], false, 0⟩ flattened).out =
      kept := hkept.out
  unfold beforeReset
  dsimp only
  split
  · next hany =>
      have hne : kept ≠ [] := by
        rintro rfl
        rw [hkept.keptAny] at hany
        cases hany
      refine ⟨(hkept.whole.out.append hdots).append hkept.whole.held, ?_, kept, hkept.front, ?_, ?_,
        fun hnil => absurd hnil hne⟩
      · intro g hg
        rw [List.mem_append, List.mem_append] at hg
        rcases hg with (hg | hg) | hg
        · exact hin g (Or.inl hg)
        · exact hdotsRow g hg
        · exact hin g (Or.inr hg)
      · simpa using hkept.within (Nat.zero_le _)
      · rw [visible_append (hkept.whole.out.append hdots), visible_append hkept.whole.out,
          hout, hkept.whole.hidden, List.append_nil, if_neg hne]
        exact congrArg _ (visible_ellipsis 3)
  · next hany =>
      have hnil : kept = [] := by
        rw [hkept.keptAny] at hany
        simpa using hany
      refine ⟨(hkept.whole.out.append hkept.whole.held).append hcut, ?_, kept,
        hkept.front, ?_, ?_, ?_⟩
      · intro g hg
        rw [List.mem_append, List.mem_append] at hg
        rcases hg with (hg | hg) | hg
        · exact hin g (Or.inl hg)
        · exact hin g (Or.inr hg)
        · exact hdotsRow g (List.mem_of_mem_take hg)
      · simpa using hkept.within (Nat.zero_le _)
      · rw [visible_append (hkept.whole.out.append hkept.whole.held),
          visible_append hkept.whole.out, hout, hkept.whole.hidden, List.append_nil,
          if_pos hnil, visible_ellipsis]
        rw [List.take_eq_take_iff.mpr (by simp : min (min width 3) 3 = min width 3)]
      · intro _ c hc
        simpa using hkept.stopped hnil c hc

theorem sum_ellipsis (hdot : charWidth '.' = 1) (n : ℕ) :
    (("...".toList.take n).map charWidth).sum = min n 3 := by
  rw [show "...".toList = List.replicate 3 '.' from rfl, List.take_replicate,
    List.map_replicate, hdot, List.sum_replicate, smul_eq_mul, Nat.mul_one]

/-- A row is as expected, unless one or two columns are too few for the text, and it begins with a
character of no width. -/
theorem fitsRow_iff (hdot : charWidth '.' = 1) (h : Pieces Legible IsSgr text) (width : ℕ) :
    FitsRow charWidth text width ↔
      (width < 3 → width < displayWidth charWidth (flatten text) →
        ∀ c ∈ (visible (flatten text)).head?, charWidth c ≠ 0) := by
  by_cases hwide : width < displayWidth charWidth (flatten text)
  · obtain ⟨hspans, hrow, kept, hfront, hsum, hvisible, hstopped⟩ :=
      @beforeReset_spec charWidth width _ (spans_flatten h) (inRow_flatten text)
    obtain ⟨hshown, hin, hclosed⟩ := withReset_spec hspans hrow
    rw [← fitRow_clipped hwide, hvisible] at hshown
    rw [← fitRow_clipped hwide] at hin hclosed
    have hcolumns : displayWidth charWidth (fitRow charWidth text (some width)) =
        (kept.map charWidth).sum + min (if kept = [] then width else 3) 3 := by
      rw [displayWidth_eq, hshown, List.map_append, List.sum_append, sum_ellipsis hdot]
    constructor
    · intro hfits hfew _ c hc hzero
      have hne : kept ≠ [] := by
        intro hnil
        have := hstopped hnil c hc
        omega
      have hwithin := hfits.within
      rw [hcolumns, if_neg hne] at hwithin
      omega
    · intro hcharacter
      have hroom : kept ≠ [] → 3 ≤ width := by
        intro hne
        by_contra hfew
        obtain ⟨c, rest, rfl⟩ := List.exists_cons_of_ne_nil hne
        have hhead : c ∈ (visible (flatten text)).head? := by
          obtain ⟨after, hafter⟩ := hfront
          rw [← hafter]
          rfl
        have hnonzero := hcharacter (not_le.mp hfew) hwide c hhead
        rw [List.map_cons, List.sum_cons] at hsum
        omega
      refine ⟨?_, hin, fun hfits => absurd hfits (not_le.mpr hwide),
        fun _ => ⟨kept, hfront, ?_⟩, fun _ => hclosed⟩
      · rw [hcolumns]
        split
        · next hnil =>
            rw [hnil, List.map_nil, List.sum_nil]
            omega
        · next hne =>
            have := hroom hne
            omega
      · rw [hshown]
        split
        · rfl
        · next hne =>
            rw [List.take_of_length_le (show "...".toList.length ≤ width from hroom hne),
              List.take_of_length_le (show "...".toList.length ≤ 3 from le_rfl)]
  · have hfits := not_lt.mp hwide
    have hsame : fitRow charWidth text (some width) = flatten text := by
      rw [fitRow, clipToWidth]
      exact if_pos hfits
    refine iff_of_true ⟨?_, ?_, fun _ => hsame, fun h => absurd h hwide, fun h => absurd h hwide⟩
      fun _ h => absurd h hwide
    · rw [hsame]
      exact hfits
    · rw [hsame]
      exact inRow_flatten text

/-- A width of one for every character but a combining accent. -/
def plainWidth (c : Char) : ℕ := if c = '\u0301' then 0 else 1

/-- A bold name in four columns. -/
theorem fitsRow_bold : FitsRow plainWidth (sgr "1" ++ own "app" ++ sgr "0" ++ own ": ready") 4 := by
  have hplain : ∀ literal : String, (own literal).all (fun g => !isControl g.char) = true →
      Pieces Legible IsSgr (own literal) := by
    intro literal hliteral
    refine .of_glyphs fun g hg hcontrol => ?_
    have hg' := List.all_eq_true.mp hliteral g hg
    rw [hcontrol] at hg'
    cases hg'
  have hsgr : ∀ code : String, code.toList.all (fun c => c.isDigit || c = ';') = true →
      Pieces Legible IsSgr (sgr code) :=
        fun code hcode => .of_sequence (isSgr_of_sgr (sgr_of_code hcode))
  exact (fitsRow_iff rfl ((((hsgr "1" rfl).append (hplain "app" rfl)).append (hsgr "0" rfl)).append
    (hplain ": ready" rfl)) 4).mpr fun h => absurd h (by decide)

/-- An accent before the text, in two columns: it is kept, and three columns follow it. -/
theorem accent_does_not_fit : Pieces Legible IsSgr (own "\u0301abc") ∧
    visible (fitRow plainWidth (own "\u0301abc") (some 2)) = "\u0301...".toList ∧
      ¬ FitsRow plainWidth (own "\u0301abc") 2 := by
  refine ⟨.of_glyphs ?_, by decide, fun h => ?_⟩
  · intro g hg hcontrol
    have hnone : ∀ g ∈ own "\u0301abc", isControl g.char = false := by decide
    rw [hnone g hg] at hcontrol
    cases hcontrol
  · exact absurd h.within (by decide)

end row

end Ratect.Ui.Fancy
