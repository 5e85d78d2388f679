import Ratect.Terminal
import Ratect.FitRow
import Ratect.TerminalSafety

/-! # The live display on its terminal

What `fancy` writes goes to a terminal that containers and `stderr` write to as well, so all it may
move back over is what it painted itself and nothing was written below: the block of a task that is
starting, or the countdown of a cleanup.  `painted_lines`, `cleanup_shown` and the rest keep count
of these rows.  `Sound` says what they count, and `Goes` what an event then leaves alone: everything
before the live rows, or before the cursor if there are none.

The terminal has three columns or more, and stays as wide as it is. -/

namespace Ratect.Ui.Fancy

open Terminal (Device Screen Place Keeps Advances startOf lay)

/-! ### What is written -/

/-- A display: the consoles' colours, whether `stderr` is on the screen too, and its terminal. -/
structure Display where
  rendering : Rendering
  color : Bool
  stderrColor : Bool
  stderrOnScreen : Bool
  columns : ℕ
  wide : 3 ≤ columns
  dot : rendering.charWidth '.' = 1

namespace Display

variable (d : Display)

def device : Device := ⟨d.columns, d.rendering.charWidth⟩

/-- The progress console, of a terminal in raw mode or not. -/
def console (raw : Bool) : Console := ⟨d.color, raw⟩

def stderr (raw : Bool) : Console := ⟨d.stderrColor, raw && d.stderrOnScreen⟩

def onScreen (write : Write) : Bool :=
  match write.stream with
  | .stderr => d.stderrOnScreen
  | _ => true

/-- The screen after some writes. -/
def shows (raw : Bool) (writes : List Write) (s : Screen) : Screen :=
  (writes.filter d.onScreen).foldl
    (fun s write => d.device.write raw (write.text.map Glyph.char) s) s

/-- The screen after a text, on a terminal that is not in raw mode. -/
def printed (text : Text) (s : Screen) : Screen := d.device.write false (text.map Glyph.char) s

/-- `FancyEventLogger::post` on this terminal. -/
def post (raw : Bool) (state : State) (event : TaskEvent) : State × List Write :=
  Fancy.post d.rendering (d.console raw) (d.stderr raw) d.stderrOnScreen
    (some d.columns) state event

variable {d} {raw : Bool} {s : Screen}

theorem shows_append (a b : List Write) :
    d.shows raw (a ++ b) s = d.shows raw b (d.shows raw a s) := by
  unfold shows
  rw [List.filter_append, List.foldl_append]

@[simp] theorem shows_nil : d.shows raw [] s = s := rfl

@[simp] theorem printed_nil : d.printed [] s = s := rfl

theorem printed_append (a b : Text) : d.printed (a ++ b) s = d.printed b (d.printed a s) := by
  unfold printed
  rw [List.map_append, Device.write_append]

theorem printed_cons (g : Glyph) (text : Text) :
    d.printed (g :: text) s = d.printed text (d.device.feed false s g.char) := rfl

/-- The carriage returns that raw mode takes make no difference but for that mode. -/
theorem write_lineEndings (text : Text) (afterReturn : Bool) (h : afterReturn = true → s.col = 0) :
    d.device.write true ((lineEndings afterReturn text).map Glyph.char) s = d.printed text s := by
  induction text generalizing afterReturn s with
  | nil => rfl
  | cons g text ih =>
      obtain ⟨c, mark⟩ := g
      rw [lineEndings, printed_cons]
      by_cases hbreak : c = '\n'
      · subst hbreak
        have hdown : d.device.feed false s '\n' = { s with row := s.row + 1, col := 0 } := rfl
        have hend : ∀ s : Screen,
            d.device.write true ((lineEndings false text).map Glyph.char) s = d.printed text s :=
          fun s => ih false (fun h => Bool.noConfusion h)
        cases afterReturn with
        | false => exact hend _
        | true =>
            have hraw : d.device.feed true s '\n' = { s with row := s.row + 1, col := 0 } := by
              rw [← h rfl]
              rfl
            rw [hdown, ← hend, ← hraw]
            rfl
      · rw [if_neg fun h => hbreak h.1, List.nil_append, List.map_cons, Device.write_cons]
        have hsame : d.device.feed true s c = d.device.feed false s c := by
          unfold Device.feed
          rw [if_neg hbreak, if_neg hbreak]
        rw [hsame]
        refine ih _ fun hreturn => ?_
        unfold Device.feed
        rw [if_neg hbreak, if_pos (of_decide_eq_true hreturn)]

/-- What the progress console prints. -/
theorem shows_print (text : Text) :
    d.shows raw [(d.console raw).print .progress text] s = d.printed text s := by
  change d.device.write raw (((d.console raw).written text).map Glyph.char) s = _
  unfold Console.written console
  cases raw with
  | false => rfl
  | true => exact write_lineEndings text false fun h => Bool.noConfusion h

/-- What `stderr` prints, if it is on the screen. -/
theorem shows_stderr (text : Text) :
    d.shows raw [(d.stderr raw).print .stderr text] s = if d.stderrOnScreen then
      d.printed text s else s := by
  unfold shows
  have hon : d.onScreen ((d.stderr raw).print .stderr text) = d.stderrOnScreen := rfl
  cases honScreen : d.stderrOnScreen with
  | false =>
      rw [List.filter_cons_of_neg (by rw [hon, honScreen]; exact Bool.false_ne_true)]
      rfl
  | true =>
      rw [List.filter_cons_of_pos (by rw [hon, honScreen])]
      change d.device.write raw (((d.stderr raw).written text).map Glyph.char) s = _
      unfold Console.written stderr
      rw [honScreen, Bool.and_true]
      cases raw with
      | false => rfl
      | true => exact write_lineEndings text false fun h => Bool.noConfusion h

/-! ### How texts read -/

theorem plain_of_printable {g : Glyph} (h : Printable g) :
    g.char ≠ '\n' ∧ g.char ≠ '\r' ∧ g.char ≠ '\t' ∧ g.char ≠ '\x1b' := by
  unfold Printable at h
  refine ⟨?_, ?_, ?_, ?_⟩ <;>
  · intro hchar
    rw [hchar] at h
    revert h
    decide

theorem style_parameters {code : Str} (hcode : ∀ c ∈ code, c.isDigit ∨ c = ';') :
    ∀ c ∈ code, c.isAlpha = false ∧ c ≠ '\n' ∧ c ≠ '\r' := by
  intro c hc
  refine ⟨sgr_code_not_alpha hcode c hc, ?_, ?_⟩ <;>
  · rintro rfl
    rcases hcode _ hc with h | h <;> cases h

/-- A style is not seen. -/
theorem printed_style {style : Text} (h : Sgr style) (hground : s.reading = .ground) (text : Text) :
    d.printed (style ++ text) s = d.printed text s := by
  obtain ⟨code, hcode, rfl⟩ := h
  rw [printed_append]
  congr 1
  unfold printed
  rw [List.map_map]
  exact (congrArg (d.device.write false · s) (List.map_id _)).trans
    (Device.write_style (style_parameters hcode) hground)

/-- A message goes on from the cursor. -/
theorem advances_message {text : Text} (h : Message text) (hground : s.reading = .ground) :
    Advances s (d.printed text s) ∧ (d.printed text s).reading = .ground := by
  induction h generalizing s with
  | nil => exact ⟨.refl s, hground⟩
  | @glyph g text hg _ ih =>
      have hreturn : g.char ≠ '\r' := by
        intro hchar
        have := hg (by rw [hchar]; decide)
        rw [hchar] at this
        revert this
        decide
      have hescape : g.char ≠ '\x1b' := by
        intro hchar
        have := hg (by rw [hchar]; decide)
        rw [hchar] at this
        revert this
        decide
      obtain ⟨hfed, hground⟩ := Device.advances_feed (d := d.device) hground hreturn hescape
      obtain ⟨hrest, hground⟩ := ih hground
      exact ⟨hfed.trans hrest, hground⟩
  | @sequence style text hstyle _ ih =>
      rw [printed_style hstyle hground]
      exact ih hground

/-- A row that fits stays in its row. -/
theorem printed_row {text : Text} (h : Row text) (hground : s.reading = .ground)
    (hfits : s.col + displayWidth d.rendering.charWidth text ≤ d.columns) :
    d.printed text s =
      { s with
        cells :=
          Function.update s.cells s.row
            (lay d.rendering.charWidth s.col (visible text) (s.cells s.row))
        col := s.col + displayWidth d.rendering.charWidth text } := by
  induction h generalizing s with
  | nil =>
      rw [show visible [] = [] from rfl, lay, Function.update_eq_self]
      rfl
  | @glyph g text hg _ ih =>
      have hplain := plain_of_printable hg
      have hvisible : visible (g :: text) = g.char :: visible text := visible_cons hplain.2.2.2 text
      have hwidth : displayWidth d.rendering.charWidth (g :: text) =
          d.rendering.charWidth g.char + displayWidth d.rendering.charWidth text := by
        rw [displayWidth_eq, displayWidth_eq, hvisible, List.map_cons, List.sum_cons]
      rw [hwidth] at hfits ⊢
      have hfed : d.device.feed false s g.char = _ := Device.feed_fits hplain hground
        (show s.col + d.rendering.charWidth g.char ≤ d.columns by omega)
      rw [printed_cons, hfed, ih (by exact hground)
        (show s.col + d.rendering.charWidth g.char + displayWidth d.rendering.charWidth text ≤
          d.columns by omega),
        hvisible, lay]
      dsimp only [device]
      rw [Function.update_self, Function.update_idem, Nat.add_assoc]
  | @sequence style text hstyle _ ih =>
      have hvisible : visible (style ++ text) = visible text :=
        visible_sgr (isSgr_of_sgr hstyle) text
      have hwidth : displayWidth d.rendering.charWidth (style ++ text) =
          displayWidth d.rendering.charWidth text := by
        rw [displayWidth_eq, displayWidth_eq, hvisible]
      rw [hwidth] at hfits ⊢
      rw [printed_style hstyle hground, hvisible]
      exact ih hground hfits

/-! ### What a row shows -/

/-- On a terminal this wide a message is clipped to what fits. -/
theorem fitRow_within {text : Text} (h : Message text) :
    displayWidth d.rendering.charWidth
      (fitRow d.rendering.charWidth text (some d.columns)) ≤ d.columns := by
  have hwide := d.wide
  by_cases hfits : displayWidth d.rendering.charWidth (flatten text) ≤ d.columns
  · rw [fitRow, clipToWidth]
    exact (if_pos hfits).symm ▸ hfits
  · have hclipped := not_le.mp hfits
    have hlegible : Pieces Legible IsSgr text :=
      h.mono (fun _ hg hcontrol => (hg hcontrol).imp_right Or.inr) fun _ => isSgr_of_sgr
    obtain ⟨hspans, hrow, kept, -, hsum, hvisible, -⟩ :=
      @beforeReset_spec d.rendering.charWidth d.columns _ (spans_flatten hlegible)
        (inRow_flatten text)
    obtain ⟨hshown, -, -⟩ := withReset_spec hspans hrow
    rw [fitRow_clipped hclipped, displayWidth_eq, hshown, hvisible,
      List.map_append, List.sum_append, sum_ellipsis d.dot]
    omega

variable (d)

/-- A text as one row of the display. -/
def fitted (text : Text) : Text := fitRow d.rendering.charWidth text (some d.columns)

/-- A row that shows a text over what it had. -/
def shownOver (text : Text) (under : Terminal.Row) : Terminal.Row :=
  lay d.rendering.charWidth 0 (visible (d.fitted text)) under

variable {d}

theorem printed_clearRow (hground : s.reading = .ground) :
    d.printed clearRow s = { s with cells := Function.update s.cells s.row .blank, col := 0 } := by
  obtain ⟨cells, row, col, reading⟩ := s
  cases hground
  rfl

theorem printed_cursorUp {n : ℕ} (hn : 0 < n) (hground : s.reading = .ground) :
    d.printed (cursorUp n) s = { s with row := s.row - n } := by
  have hchars : (cursorUp n).map Glyph.char = '\x1b' :: '[' :: (Nat.toDigits 10 n ++ ['A']) := by
    rw [cursorUp, own, List.map_map]
    simp [Nat.toString_eq_repr, Nat.toList_repr, Function.comp_def]
  unfold printed
  rw [hchars]
  exact Device.write_up hn hground

theorem printed_break : d.printed (own "\n") s = { s with row := s.row + 1, col := 0 } := rfl

/-- A row painted at the start of one, and the line break after it. -/
theorem printed_fitted {text : Text} (h : Message text) (hground : s.reading = .ground)
    (hcol : s.col = 0) :
    d.printed (d.fitted text ++ own "\n") s =
      { s with
        cells := Function.update s.cells s.row (d.shownOver text (s.cells s.row)), row :=
          s.row + 1, col := 0 } := by
  have hrow : Row (d.fitted text) := row_fitRow d.rendering.charWidth h (some d.columns)
  rw [printed_append, printed_row hrow hground (by rw [hcol, Nat.zero_add]; exact fitRow_within h),
    printed_break, hcol]
  rfl

/-! ### The block -/

variable (d)

/-- The block's text. -/
def rendered (lines : List ContainerLine) : Text :=
  lines.flatMap fun line => clearRow ++ d.fitted (line.render (d.console false)) ++ own "\n"

/-- What a line's row shows. -/
def lineRow (line : ContainerLine) : Terminal.Row :=
  d.shownOver (line.render (d.console false)) .blank

/-- What is right above the cursor is what was painted last, if that is still counted. -/
structure Drawn (state : State) (screen : Screen) : Prop where
  col : screen.col = 0
  room : state.paintedLines ≤ screen.row
  unpainted : state.paintedLines = 0 → state.lastRendered = none
  painted : state.paintedLines ≠ 0 →
    state.paintedLines = state.lines.length ∧ state.paintedWidth = some d.columns
  rows : ∀ text, state.lastRendered = some text → ∀ s : Screen, s.reading = .ground →
    s.row + state.paintedLines = screen.row → ∀ r, s.row ≤ r → r < screen.row →
      screen.cells r = (d.device.write false text s).cells r

/-- And that is the lines as they are. -/
structure Block (state : State) (screen : Screen) : Prop extends d.Drawn state screen where
  current : state.paintedLines ≠ 0 →
    state.lastRendered = some ((d.rendered state.lines).map Glyph.char)

variable {d} {state : State} {screen : Screen}

theorem printed_rendered (lines : List ContainerLine) (hground : s.reading = .ground) :
    (d.printed (d.rendered lines) s).reading = .ground ∧
      (d.printed (d.rendered lines) s).row = s.row + lines.length ∧
      (lines ≠ [] → (d.printed (d.rendered lines) s).col = 0) ∧
      (∀ r < s.row, (d.printed (d.rendered lines) s).cells r = s.cells r) ∧
      ∀ i line, lines[i]? = some line →
        (d.printed (d.rendered lines) s).cells (s.row + i) = d.lineRow line := by
  induction lines generalizing s with
  | nil => exact ⟨hground, rfl, fun h => absurd rfl h, fun _ _ => rfl, by simp⟩
  | cons line lines ih =>
      have hline : d.printed (clearRow ++ d.fitted (line.render (d.console false)) ++ own "\n") s =
          { s with
            cells := Function.update s.cells s.row (d.lineRow line),
            row := s.row + 1, col := 0 } := by
        rw [List.append_assoc, printed_append, printed_clearRow hground,
          printed_fitted (message_render _ line) (by exact hground) rfl]
        dsimp only
        rw [Function.update_self, Function.update_idem]
        rfl
      have hcons : d.rendered (line :: lines) =
          (clearRow ++ d.fitted (line.render (d.console false)) ++ own "\n") ++ d.rendered lines :=
            List.flatMap_cons
      rw [hcons, printed_append, hline]
      obtain ⟨hreading, hrow, hcol, habove, hrows⟩ :=
        @ih { s with
          cells := Function.update s.cells s.row (d.lineRow line),
          row := s.row + 1, col := 0 } hground
      refine ⟨hreading, ?_, fun _ => ?_, fun r hr => ?_, fun i other hother => ?_⟩
      · rw [hrow, List.length_cons]
        dsimp only
        omega
      · cases lines with
        | nil => rfl
        | cons next rest => exact hcol (List.cons_ne_nil _ _)
      · rw [habove r (Nat.lt_succ_of_lt hr)]
        exact Function.update_of_ne (Nat.ne_of_lt hr) _ _
      · cases i with
        | zero =>
            cases hother
            exact (habove s.row (Nat.lt_succ_self _)).trans (Function.update_self _ _ _)
        | succ i =>
            rw [← hrows i other hother]
            congr 1
            dsimp only
            omega

/-- What each row of a block shows. -/
theorem Block.shows_line (h : d.Block state screen) (hpainted : state.paintedLines ≠ 0) {i : ℕ}
    {line : ContainerLine} (hline : state.lines[i]? = some line) :
    screen.cells (screen.row - state.paintedLines + i) = d.lineRow line := by
  have hlength := (h.painted hpainted).1
  have hroom := h.room
  have hi : i < state.lines.length := (List.getElem?_eq_some_iff.mp hline).1
  let s : Screen := ⟨screen.cells, screen.row - state.paintedLines, 0, .ground⟩
  have hrows := (printed_rendered (d := d) (s := s) state.lines rfl).2.2.2.2 i line hline
  rw [← hrows]
  exact h.rows _ (h.current hpainted) s rfl (Nat.sub_add_cancel hroom)
    _ (Nat.le_add_right _ _) (by omega)

/-- Of the lines only how many they are tells what is drawn. -/
theorem Drawn.relined (h : d.Drawn state screen) {state' : State}
    (hlength : state'.lines.length = state.lines.length)
    (hpainted : state'.paintedLines = state.paintedLines)
    (hwidth : state'.paintedWidth = state.paintedWidth)
    (hrendered : state'.lastRendered = state.lastRendered) : d.Drawn state' screen where
  col := h.col
  room := hpainted ▸ h.room
  unpainted := by
    rw [hpainted, hrendered]
    exact h.unpainted
  painted := by
    rw [hpainted, hlength, hwidth]
    exact h.painted
  rows := by
    rw [hpainted, hrendered]
    exact h.rows

/-- The state once the block was painted. -/
def Repainted (state state' : State) : Prop :=
  ∃ lines width text,
    state' = { state with paintedLines := lines, paintedWidth := width, lastRendered := text }

/-- Painting the block goes over what was painted of it, and nothing else. -/
theorem repaintStartup_block (h : d.Drawn state screen) (hground : screen.reading = .ground) :
    let result := repaintStartup d.rendering (d.console raw) (some d.columns) state
    let screen' := d.shows raw result.2 screen
    Repainted state result.1 ∧ screen'.reading = .ground ∧ d.Block result.1 screen' ∧
      Keeps (startOf (screen.row - state.paintedLines)) screen screen' ∧
      screen.row - state.paintedLines ≤ screen'.row - result.1.paintedLines := by
  have hsame : (state.lines.flatMap fun line =>
      clearRow ++ fitRow d.rendering.charWidth (line.render (d.console raw))
        (some d.columns) ++ own "\n") =
        d.rendered state.lines := rfl
  dsimp only
  unfold repaintStartup
  dsimp only
  rw [hsame]
  split
  · next hnone =>
      refine ⟨⟨_, _, _, rfl⟩, hground, ⟨h, fun hpainted => ?_⟩, .refl _ _, le_rfl⟩
      have hlength := (h.painted hpainted).1
      rw [hnone] at hlength
      exact absurd hlength hpainted
  · next hlines =>
      split
      · next hlast =>
          have hpainted : state.paintedLines ≠ 0 := by
            intro hzero
            rw [h.unpainted hzero] at hlast
            cases hlast
          refine ⟨⟨_, _, _, rfl⟩, hground,
            ⟨⟨h.col, h.room, h.unpainted, fun _ => ?_, h.rows⟩, fun _ => hlast⟩,
            .refl _ _, le_rfl⟩
          exact ⟨(h.painted hpainted).1, rfl⟩
      · have hlead : d.printed (if 0 < state.paintedLines then
            if state.paintedWidth = some d.columns then cursorUp state.paintedLines
            else own "\n" else []) screen =
              { screen with row := screen.row - state.paintedLines } := by
          split
          · next hpos =>
              rw [if_pos (h.painted (Nat.ne_of_gt hpos)).2]
              exact printed_cursorUp hpos hground
          · next hzero =>
              rw [Nat.eq_zero_of_not_pos hzero]
              rfl
        rw [shows_print, printed_append, hlead]
        obtain ⟨hreading, hrow, hcol, habove, -⟩ := printed_rendered (d := d)
          (s := { screen with row := screen.row - state.paintedLines }) state.lines hground
        dsimp only at hrow
        refine ⟨⟨_, _, _, rfl⟩, hreading,
          ⟨⟨hcol hlines, ?_, ?_, fun _ => ⟨rfl, rfl⟩, ?_⟩, fun _ => rfl⟩,
          .of_rows habove, ?_⟩
        · rw [hrow]
          exact Nat.le_add_left _ _
        · intro hzero
          exact absurd (List.length_eq_zero_iff.mp hzero) hlines
        · rintro text htext s hs hrows r hle hlt
          cases htext
          have hi : r - s.row < state.lines.length := by
            dsimp only at hrows
            omega
          have hline : state.lines[r - s.row]? = some state.lines[r - s.row] :=
            List.getElem?_eq_getElem hi
          have hthere := (printed_rendered (d := d) (s := s) state.lines hs).2.2.2.2 _ _ hline
          have hhere :=
            (printed_rendered (d := d) (s := { screen with row := screen.row - state.paintedLines })
            state.lines hground).2.2.2.2 _ _ hline
          dsimp only at hhere hrows
          rw [show screen.row - state.paintedLines + (r - s.row) = r by omega] at hhere
          rw [show s.row + (r - s.row) = r by omega] at hthere
          exact hhere.trans hthere.symm
        · rw [hrow]
          dsimp only
          omega

end Display

end Ratect.Ui.Fancy
