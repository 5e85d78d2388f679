import Ratect.ConsoleSafety
import Ratect.Lines
import Ratect.Paths

/-! # The header of a converted file

`conversion_header` and the text of a converted file (`main.rs`).  Each item is escaped on its way
into the header; the name of the source file is not.  `Kept` says what a name may hold for the lines
of the header to stay comments: `comments_iff_kept` reads the line of the name, and `parse_comments`
takes a reader of TOML through comments. -/

namespace Ratect.ConversionHeader

/-! ### The header -/

/-- `ConversionCheck`. -/
structure ConversionCheck where
  message : Text

/-- `comment_line`. -/
def commentLine (text : Text) : Text := escapeControls text fun c => c ≠ '\t'

/-- `conversion_header`. -/
def conversionHeader (source : Paths.Path) (checks : List ConversionCheck) : Text :=
  "# Generated by `ratect config convert` from ".toList ++ Paths.toText source ++ ".\n".toList ++
    "# Review before use: comments were not carried over.\n".toList ++
    if checks = [] then []
    else "#\n# Check before use:\n".toList ++
      checks.flatMap fun check => "# ".toList ++ commentLine check.message ++ ['\n']

/-- The text of a converted file, under its header. -/
def documentText (source : Paths.Path) (checks : List ConversionCheck) (toml : Text) : Text :=
  conversionHeader source checks ++ '\n' :: toml

/-- `ConvertedFile`. -/
structure ConvertedFile where
  source : Paths.Path
  toml : Text
  checks : List ConversionCheck

/-- What the header calls the source: its bare name. -/
def ConvertedFile.sourceName (file : ConvertedFile) : Paths.Path :=
  ((Paths.fileName file.source).map .normal).toList

/-- The text of a `ConvertedDocument`. -/
def ConvertedFile.text (file : ConvertedFile) : Text :=
  documentText file.sourceName file.checks file.toml

/-! ### Comments -/

/-- The control characters that TOML allows in no comment: all of ASCII but the tab. -/
def forbidden (c : Char) : Bool :=
  c.toNat ≤ 0x08 || (0x0a ≤ c.toNat && c.toNat ≤ 0x1f) || c.toNat = 0x7f

/-- A line that is a comment and no more. -/
def Comment (line : Text) : Prop := line.head? = some '#' ∧ ∀ c ∈ line, forbidden c = false

instance (line : Text) : Decidable (Comment line) := inferInstanceAs (Decidable (_ ∧ _))

/-- A name whose every forbidden character is of a line break, `\n` or `\r\n`, that a `#`
follows. -/
def Kept : Text → Prop
  | [] => True
  | c :: rest =>
      (forbidden c = true →
        c = '\n' ∧ rest.head? = some '#' ∨
          c = '\r' ∧ rest.head? = some '\n' ∧ rest.tail.head? = some '#') ∧
      Kept rest

instance decidableKept : (name : Text) → Decidable (Kept name)
  | [] => inferInstanceAs (Decidable True)
  | _ :: rest => have := decidableKept rest; inferInstanceAs (Decidable (_ ∧ Kept rest))

/-- The byte order mark, which a reader passes over at the start of a file only. -/
def byteOrderMark : Char := Char.ofNat 0xfeff

/-- A reader of TOML passes over a comment, which ends at `\n` or `\r\n`. -/
def SkipsComments {α : Type} (parse : Text → Option α) : Prop :=
  ∀ comment newline rest, Comment comment → newline ∈ [['\n'], ['\r', '\n']] →
    rest.head? ≠ some byteOrderMark →
    parse (comment ++ newline ++ rest) = parse rest

/-- A reader of TOML passes over an empty line. -/
def SkipsEmptyLines {α : Type} (parse : Text → Option α) : Prop :=
  ∀ rest, rest.head? ≠ some byteOrderMark → parse ('\n' :: rest) = parse rest

/-! ### The line of the name -/

/-- No break stands in what may be in a comment. -/
theorem not_mem_of_allowed {t : Text} (h : ∀ c ∈ t, forbidden c = false) : '\n' ∉ t ∧ '\r' ∉ t := by
  refine ⟨fun hmem => ?_, fun hmem => ?_⟩
  · exact absurd (h _ hmem) (by decide)
  · exact absurd (h _ hmem) (by decide)

/-- The lines of a name that goes on after `start`, with the full stop behind it: no forbidden
character in the first, and comments after it. -/
def Clean (start name : Text) : Prop :=
  ∃ first others,
    linesFrom start (name ++ ['.', '\n']) = first :: others ∧ (∀ c ∈ first, forbidden c = false) ∧
    ∀ line ∈ others, Comment line

theorem clean_iff_of_lines {start name first : Text} {others : List Text}
    (h : linesFrom start (name ++ ['.', '\n']) = first :: others) :
    Clean start name ↔ (∀ c ∈ first, forbidden c = false) ∧ ∀ line ∈ others, Comment line := by
  unfold Clean
  rw [h]
  constructor
  · rintro ⟨first', others', heq, hfirst, hothers⟩
    obtain ⟨rfl, rfl⟩ := List.cons.inj heq
    exact ⟨hfirst, hothers⟩
  · rintro ⟨hfirst, hothers⟩
    exact ⟨first, others, rfl, hfirst, hothers⟩

/-- What is begun stays in the first line, unless the line break takes a carriage return from it. -/
theorem first_line (start name : Text) (h : start.getLast? = some '\r' → name.head? ≠ some '\n') :
    ∃ first others, linesFrom start (name ++ ['.', '\n']) = first :: others ∧ start <+: first ∧
      first <+: start ++ (name ++ ['.']) := by
  have happend : name ++ ['.', '\n'] = (name ++ ['.']) ++ ['\n'] := by
    rw [List.append_assoc, List.singleton_append]
  by_cases hbreak : name.head? = some '\n'
  · obtain ⟨rest, rfl⟩ := List.head?_eq_some_iff.mp hbreak
    have hstrip : stripLast '\r' start = none := by
      rw [stripLast, if_neg]
      exact fun hlast => h hlast rfl
    refine ⟨start, linesFrom [] (rest ++ ['.', '\n']), ?_, List.prefix_refl _,
      List.prefix_append _ _⟩
    rw [List.cons_append, linesFrom, if_pos rfl, hstrip]
    rfl
  · rw [happend]
    refine start_isPrefix (by simp) ?_ start
    cases name with
    | nil => decide
    | cons c name => exact hbreak

/-- A character that is not a line break goes on with the line. -/
theorem linesFrom_cons {c : Char} (hc : c ≠ '\n') (start rest : Text) :
    linesFrom start (c :: rest) = linesFrom (start ++ [c]) rest := by
  rw [linesFrom, if_neg hc]

theorem clean_cons {c : Char} (hc : c ≠ '\n') (start rest : Text) :
    Clean start (c :: rest) ↔ Clean (start ++ [c]) rest := by
  unfold Clean
  rw [List.cons_append, linesFrom_cons hc]

/-- After a line break come comments just if a `#` comes first. -/
theorem comments_iff_clean (name : Text) :
    (∀ line ∈ linesFrom [] (name ++ ['.', '\n']), Comment line) ↔
    name.head? = some '#' ∧ Clean [] name := by
  obtain ⟨first, others, hlines, -, hfirst⟩ := first_line [] name (fun h => by cases h)
  have hhead : first.head? = some '#' ↔ name.head? = some '#' := by
    constructor
    · intro h
      obtain ⟨line, rfl⟩ := List.head?_eq_some_iff.mp h
      obtain ⟨rest, hrest⟩ := hfirst
      cases name with
      | nil =>
          have hchars := (List.cons.inj hrest).1
          exact absurd hchars (by decide)
      | cons c name =>
          obtain ⟨rfl, -⟩ := List.cons.inj hrest
          rfl
    · intro h
      obtain ⟨rest, rfl⟩ := List.head?_eq_some_iff.mp h
      obtain ⟨first', others', hlines', ⟨line, rfl⟩, -⟩ :=
        first_line ['#'] rest (fun h => by cases h)
      rw [List.cons_append, linesFrom_cons (by decide), List.nil_append, hlines'] at hlines
      obtain ⟨rfl, -⟩ := List.cons.inj hlines
      rfl
  rw [clean_iff_of_lines hlines, hlines, List.forall_mem_cons, ← hhead, Comment, and_assoc]

/-- A break after what may be in a comment. -/
theorem clean_break {start line : Text}
    (hline : (stripLast '\r' (start ++ line)).getD (start ++ line) = start) (hn : '\n' ∉ line)
    (hstart : ∀ c ∈ start, forbidden c = false) (name : Text) :
    Clean start (line ++ '\n' :: name) ↔ name.head? = some '#' ∧ Clean [] name := by
  have hlines : linesFrom start (line ++ '\n' :: name ++ ['.', '\n']) =
      start :: linesFrom [] (name ++ ['.', '\n']) := by
    rw [List.append_assoc, List.cons_append, linesFrom_line hn, hline]
  rw [clean_iff_of_lines hlines, comments_iff_clean]
  exact and_iff_right hstart

/-- Any other forbidden character stays in the line. -/
theorem not_clean {c : Char} (hc : c ≠ '\n') (hforbidden : forbidden c = true) {rest : Text}
    (hreturn : ¬ (c = '\r' ∧ rest.head? = some '\n')) (start : Text) :
    ¬ Clean start (c :: rest) := by
  rw [clean_cons hc]
  obtain ⟨first, others, hlines, hstart, -⟩ := first_line (start ++ [c]) rest (by
    rw [List.getLast?_concat]
    intro hlast hhead
    exact hreturn ⟨Option.some.inj hlast, hhead⟩)
  rw [clean_iff_of_lines hlines]
  rintro ⟨hfirst, -⟩
  have hallowed := hfirst c (hstart.subset (by simp))
  rw [hforbidden] at hallowed
  cases hallowed

/-- A name goes on from what may be in a comment without leaving it just if each forbidden character
of it is of a break that a `#` follows. -/
theorem clean_iff_kept {name start : Text} (hstart : ∀ c ∈ start, forbidden c = false) :
    Clean start name ↔ Kept name := by
  induction hlength : name.length using Nat.strong_induction_on generalizing name start with
  | _ n ih =>
      cases name with
      | nil =>
          have hlines : linesFrom start ([] ++ ['.', '\n']) = [start ++ ['.']] := by
            rw [List.nil_append, linesFrom_cons (by decide), linesFrom, if_pos rfl,
              stripLast, if_neg (by simp)]
            rfl
          rw [clean_iff_of_lines hlines]
          simp only [List.mem_append, List.mem_singleton, Kept, iff_true,
            List.not_mem_nil, false_imp_iff, implies_true, and_true]
          rintro c (hc | rfl)
          · exact hstart c hc
          · decide
      | cons c rest =>
          have hshorter : rest.length < n := by
            rw [← hlength]
            exact Nat.lt_succ_self _
          have hnothing : ∀ c ∈ ([] : Text), forbidden c = false := by simp
          by_cases hn : c = '\n'
          · subst hn
            have hstrip : (stripLast '\r' (start ++ [])).getD (start ++ []) = start := by
              rw [List.append_nil, stripLast_of_not_mem (not_mem_of_allowed hstart).2]
              rfl
            rw [← List.nil_append ('\n' :: rest), clean_break hstrip (by simp) hstart,
              ih _ hshorter hnothing rfl]
            simp [Kept, show forbidden '\n' = true by decide]
          · by_cases hr : c = '\r' ∧ rest.head? = some '\n'
            · obtain ⟨rfl, hhead⟩ := hr
              obtain ⟨rest, rfl⟩ := List.head?_eq_some_iff.mp hhead
              have hstrip : (stripLast '\r' (start ++ ['\r'])).getD (start ++ ['\r']) = start := by
                rw [stripLast_append]
                rfl
              have hbreak := clean_break hstrip (by decide) hstart rest
              rw [List.singleton_append] at hbreak
              rw [hbreak, ih rest.length
                (by simp only [List.length_cons] at hshorter; omega) hnothing rfl]
              simp [Kept, show forbidden '\n' = true by
                decide, show forbidden '\r' = true by decide]
            · by_cases hforbidden : forbidden c = true
              · refine iff_of_false (not_clean hn hforbidden hr start) ?_
                rintro ⟨hbreak, -⟩
                rcases hbreak hforbidden with ⟨hc, -⟩ | ⟨hc, hhead, -⟩
                · exact hn hc
                · exact hr ⟨hc, hhead⟩
              · rw [clean_cons hn, ih _ hshorter ?_ rfl]
                · simp [Kept, hforbidden]
                · intro d hd
                  rcases List.mem_append.mp hd with hd | hd
                  · exact hstart d hd
                  · rw [List.mem_singleton.mp hd]
                    exact Bool.eq_false_iff.mpr hforbidden

/-! ### The lines of the header -/

/-- What stands before the name. -/
def lead : Text := "# Generated by `ratect config convert` from ".toList

/-- The lines that follow the name. -/
def itemLines (checks : List ConversionCheck) : List Text :=
  "# Review before use: comments were not carried over.".toList ::
    if checks = [] then []
    else ['#'] :: "# Check before use:".toList :: checks.map fun check =>
      "# ".toList ++ commentLine check.message

theorem allowed_of_all {t : Text} (h : t.all (fun c => !forbidden c) = true) :
    ∀ c ∈ t, forbidden c = false := by
  simpa using h

theorem lead_allowed : ∀ c ∈ lead, forbidden c = false := allowed_of_all rfl

theorem conversionHeader_eq (source : Paths.Path) (checks : List ConversionCheck) :
    conversionHeader source checks =
      lead ++ (Paths.toText source ++ ['.', '\n'] ++ (itemLines checks).flatMap (· ++ ['\n'])) := by
  unfold conversionHeader itemLines lead
  by_cases hchecks : checks = []
  · rw [if_pos hchecks, if_pos hchecks]
    simp
  · rw [if_neg hchecks, if_neg hchecks]
    simp [List.flatMap_map]

theorem isControl_of_forbidden {c : Char} (h : forbidden c = true) :
    isControl c = true ∧ c ≠ '\t' := by
  constructor
  · simp only [forbidden, isControl, Bool.or_eq_true, Bool.and_eq_true, decide_eq_true_eq] at h ⊢
    omega
  · rintro rfl
    exact absurd h (by decide)

/-- An item is escaped: nothing forbidden is left of it. -/
theorem commentLine_allowed (text : Text) : ∀ c ∈ commentLine text, forbidden c = false := by
  intro c hc
  by_contra hforbidden
  obtain ⟨hcontrol, htab⟩ := isControl_of_forbidden (Bool.not_eq_false _ ▸ hforbidden)
  have hkept := Ui.escapeControls_printable c hc hcontrol
  exact htab (by simpa using hkept)

theorem itemLines_comments (checks : List ConversionCheck) :
    ∀ line ∈ itemLines checks, Comment line := by
  intro line hline
  rcases List.mem_cons.mp hline with rfl | hline
  · exact ⟨rfl, allowed_of_all rfl⟩
  · split_ifs at hline with hchecks
    · cases hline
    · rcases List.mem_cons.mp hline with rfl | hline
      · exact ⟨rfl, allowed_of_all rfl⟩
      · rcases List.mem_cons.mp hline with rfl | hline
        · exact ⟨rfl, allowed_of_all rfl⟩
        · obtain ⟨check, -, rfl⟩ := List.mem_map.mp hline
          refine ⟨rfl, fun c hc => ?_⟩
          rcases List.mem_append.mp hc with hc | hc
          · exact allowed_of_all rfl c hc
          · exact commentLine_allowed check.message c hc

theorem lines_conversionHeader (source : Paths.Path) (checks : List ConversionCheck) :
    lines (conversionHeader source checks) =
      linesFrom lead (Paths.toText source ++ ['.', '\n']) ++ itemLines checks := by
  have hitems : linesFrom [] ((itemLines checks).flatMap (· ++ ['\n'])) = itemLines checks :=
    lines_flatMap fun line hline => not_mem_of_allowed (itemLines_comments checks line hline).2
  have hbreak :=
    linesFrom_break (Paths.toText source ++ ['.']) ((itemLines checks).flatMap (· ++ ['\n'])) lead
  simp only [List.append_assoc, List.cons_append, List.nil_append] at hbreak
  rw [conversionHeader_eq, lines, linesFrom_append (not_mem_of_allowed lead_allowed).1,
    List.nil_append, List.append_assoc, List.cons_append, List.singleton_append, hbreak, hitems]

/-- The lines of the header are comments just if the name is one that stays in its line. -/
theorem comments_iff_kept (source : Paths.Path) (checks : List ConversionCheck) :
    (∀ line ∈ lines (conversionHeader source checks), Comment line) ↔
      Kept (Paths.toText source) := by
  obtain ⟨first, others, hlines, ⟨rest, rfl⟩, -⟩ := first_line lead (Paths.toText source)
    fun hlast => absurd (List.mem_of_getLast? hlast) (not_mem_of_allowed lead_allowed).2
  rw [← clean_iff_kept lead_allowed, clean_iff_of_lines hlines, lines_conversionHeader, hlines,
    List.forall_mem_append, and_iff_left (itemLines_comments checks), List.forall_mem_cons, Comment]
  exact and_congr_left fun _ => and_iff_right rfl

/-! ### Reading the file -/

/-- Comments begin with `#`. -/
theorem head_of_comments {t : Text} (h : ∀ line ∈ linesFrom [] (t ++ ['\n']), Comment line) :
    t.head? = some '#' := by
  by_cases hbreak : (t ++ ['\n']).head? = some '\n'
  · obtain ⟨rest, hrest⟩ := List.head?_eq_some_iff.mp hbreak
    rw [hrest, linesFrom, if_pos rfl] at h
    have hnone := (h _ (List.mem_cons_self ..)).1
    cases hnone
  · cases t with
    | nil => exact absurd rfl hbreak
    | cons c t =>
        obtain ⟨first, others, hlines, -, rest, hfirst⟩ :=
          start_isPrefix (List.cons_ne_nil c t) hbreak []
        rw [hlines] at h
        obtain ⟨line, rfl⟩ := List.head?_eq_some_iff.mp (h first (List.mem_cons_self ..)).1
        obtain ⟨rfl, -⟩ := List.cons.inj hfirst
        rfl

section Reading

variable {α : Type} {parse : Text → Option α}

/-- A reader passes over one line. -/
theorem parse_line (hcomments : SkipsComments parse) {line rest : Text}
    (h : Comment ((stripLast '\r' line).getD line)) (hrest : rest.head? ≠ some byteOrderMark) :
    parse (line ++ '\n' :: rest) = parse rest := by
  cases hstrip : stripLast '\r' line with
  | none =>
      rw [hstrip] at h
      have hskip := hcomments line ['\n'] rest h (by simp) hrest
      rw [List.append_assoc] at hskip
      exact hskip
  | some comment =>
      rw [hstrip] at h
      have hskip := hcomments comment ['\r', '\n'] rest h (by simp) hrest
      rw [stripLast_eq_some.mp hstrip, ← hskip]
      simp

/-- A reader passes over a text whose lines are comments. -/
theorem parse_comments (hcomments : SkipsComments parse) {t start rest : Text}
    (h : ∀ line ∈ linesFrom start (t ++ ['\n']), Comment line)
    (hrest : rest.head? ≠ some byteOrderMark) :
    parse (start ++ t ++ '\n' :: rest) = parse rest := by
  induction t generalizing start with
  | nil =>
      rw [List.nil_append, linesFrom, if_pos rfl] at h
      rw [List.append_nil]
      exact parse_line hcomments (h _ (List.mem_cons_self ..)) hrest
  | cons c t ih =>
      rw [List.cons_append, linesFrom] at h
      split_ifs at h with hc
      · rw [List.forall_mem_cons] at h
        obtain ⟨rest', rfl⟩ := List.head?_eq_some_iff.mp (head_of_comments h.2)
        have hread := ih h.2
        rw [List.nil_append] at hread
        rw [hc, List.append_assoc, List.cons_append,
          parse_line hcomments h.1 (by simp [byteOrderMark]), hread]
      · have hread := ih h
        rw [List.append_cons start c t]
        exact hread

/-- Under a header of comments, a document is read as by itself. -/
theorem parse_documentText (hcomments : SkipsComments parse) (hempty : SkipsEmptyLines parse)
    {source : Paths.Path} {checks : List ConversionCheck} {toml : Text}
    (htoml : toml.head? ≠ some byteOrderMark)
    (h : ∀ line ∈ lines (conversionHeader source checks), Comment line) :
    parse (documentText source checks toml) = parse toml := by
  obtain ⟨header, hheader⟩ : ∃ header, conversionHeader source checks = header ++ ['\n'] := by
    rcases List.eq_nil_or_concat (itemLines checks) with hnil | ⟨init, last, hlast⟩
    · cases hnil
    · refine ⟨lead ++ (Paths.toText source ++ ['.', '\n'] ++ (init.flatMap (· ++ ['\n']) ++ last)),
        ?_⟩
      rw [conversionHeader_eq, hlast, List.concat_eq_append, List.flatMap_append,
        List.flatMap_singleton]
      simp only [List.append_assoc]
  have hbreak : ('\n' :: toml).head? ≠ some byteOrderMark := by simp [byteOrderMark]
  rw [hheader] at h
  have hread := parse_comments hcomments h hbreak
  rw [List.nil_append] at hread
  rw [documentText, hheader, List.append_assoc, List.singleton_append, hread, hempty toml htoml]

end Reading

/-- The lines of a header are comments, and the file is read as the document, just if each control
character of the source's name that TOML forbids in a comment is of a line break that a `#` follows:
the items are escaped, and the name is not. -/
theorem header_is_comments_iff {α : Type} {parse : Text → Option α}
    (hcomments : SkipsComments parse) (hempty : SkipsEmptyLines parse) (source : Paths.Path)
    (checks : List ConversionCheck) {toml : Text} (htoml : toml.head? ≠ some byteOrderMark) :
    ((∀ line ∈ lines (conversionHeader source checks), Comment line) ∧
      parse (documentText source checks toml) = parse toml) ↔ Kept (Paths.toText source) := by
  rw [← comments_iff_kept source checks]
  constructor
  · rintro ⟨h, -⟩
    exact h
  · intro h
    exact ⟨h, parse_documentText hcomments hempty htoml h⟩

/-! ### A reader -/

/-- A character of a bare key. -/
def bareKey (c : Char) : Bool := c.isAlphanum || c = '_' || c = '-'

/-- A line of a flat table of numbers: nothing, or a bare key and its number, and then a comment or
none. -/
def readLine (line : Text) : Option (List (Text × ℕ)) :=
  let (content, comment) := (splitOnce '#' line).getD (line, [])
  if comment.any forbidden then none
  else if trim content = [] then some []
  else
    match splitOnce '=' content with
    | none => none
    | some (key, value) =>
        if trim key ≠ [] ∧ (trim key).all bareKey = true then
          (decimal (trim value)).map fun n => [(trim key, n)]
        else none

/-- A flat table of numbers. -/
def readTable (t : Text) : Option (List (Text × ℕ)) := ((lines t).mapM readLine).map List.flatten

theorem readTable_line (line newline rest : Text) (hnewline : newline ∈ [['\n'], ['\r', '\n']])
    (hn : '\n' ∉ line) (hr : '\r' ∉ line) (hline : readLine line = some []) :
    readTable (line ++ newline ++ rest) = readTable rest := by
  have hlines : lines (line ++ newline ++ rest) = line :: lines rest := by
    unfold lines
    rw [List.append_assoc, linesFrom_append hn, List.nil_append]
    simp only [List.mem_cons, List.not_mem_nil, or_false] at hnewline
    rcases hnewline with rfl | rfl
    · rw [List.cons_append, linesFrom, if_pos rfl, stripLast_of_not_mem hr]
      rfl
    · rw [List.cons_append, linesFrom, if_neg (by decide), List.cons_append, linesFrom,
        if_pos rfl, stripLast_append]
      rfl
  unfold readTable
  rw [hlines, List.mapM_cons, hline]
  cases (lines rest).mapM readLine <;> rfl

theorem readTable_skips : SkipsComments readTable ∧ SkipsEmptyLines readTable := by
  constructor
  · intro comment newline rest hcomment hnewline _
    obtain ⟨hn, hr⟩ := not_mem_of_allowed hcomment.2
    obtain ⟨text, rfl⟩ := List.head?_eq_some_iff.mp hcomment.1
    have hread : readLine ('#' :: text) = some [] := by
      have hany : text.any forbidden = false := by
        rw [List.any_eq_false]
        intro c hc
        simp [hcomment.2 c (List.mem_cons_of_mem _ hc)]
      unfold readLine
      simp [splitOnce, hany, trim, trimStart, trimEnd]
    exact readTable_line _ _ _ hnewline hn hr hread
  · intro rest _
    exact readTable_line [] ['\n'] _ (by simp) (by simp) (by simp) (by decide)

/-- An item with a line break in it stays an item. -/
theorem header_is_comments_item :
    (∀ line ∈ lines (conversionHeader (Paths.ofText "batect.yml".toList)
      [⟨"/home\n[tasks.injected]".toList⟩]),
      Comment line) ∧
    readTable (documentText (Paths.ofText "batect.yml".toList)
      [⟨"/home\n[tasks.injected]".toList⟩] "x = 1\n".toList) =
      readTable "x = 1\n".toList :=
  (header_is_comments_iff readTable_skips.1 readTable_skips.2 _ _ (by decide +kernel)).mpr
    (by decide +kernel)

/-- A line break in a name is one in the file, and what follows it is read. -/
theorem name_breaks_header :
    (¬ ∀ source checks, ∀ line ∈ lines (conversionHeader source checks), Comment line) ∧
    readTable (documentText (Paths.ofText "batect.yml\nx = 1 #".toList) [] []) = some [(['x'], 1)] ∧
    readTable [] = some [] := by
  refine ⟨fun h => ?_, by decide +kernel, by decide⟩
  have hkept := (comments_iff_kept (Paths.ofText "batect.yml\nx = 1 #".toList) []).mp (h _ _)
  exact absurd hkept (by decide +kernel)

/-! ### Converted files -/

theorem kept_of_allowed {name : Text} (h : ∀ c ∈ name, forbidden c = false) : Kept name := by
  induction name with
  | nil => trivial
  | cons c name ih =>
      refine ⟨fun hforbidden => ?_, ih fun d hd => h d (List.mem_cons_of_mem _ hd)⟩
      rw [h c (List.mem_cons_self ..)] at hforbidden
      cases hforbidden

/-- A file whose name holds no forbidden control character is read as its document, wherever it is
and whatever its items quote. -/
theorem ConvertedFile.parse_text {α : Type} {parse : Text → Option α}
    (hcomments : SkipsComments parse) (hempty : SkipsEmptyLines parse) (file : ConvertedFile)
    (htoml : file.toml.head? ≠ some byteOrderMark)
    (hname : ∀ name, Paths.fileName file.source = some name →
      ∀ c ∈ name.text, forbidden c = false) :
    parse file.text = parse file.toml := by
  have hkept : Kept (Paths.toText file.sourceName) := by
    unfold ConvertedFile.sourceName
    cases hfile : Paths.fileName file.source with
    | none => decide
    | some name =>
        have htext : Paths.toText ((some name).map .normal).toList = name.text := by
          simp [Paths.toText, Paths.Component.toText]
        rw [htext]
        exact kept_of_allowed (hname name hfile)
  exact parse_documentText hcomments hempty htoml ((comments_iff_kept _ _).mpr hkept)

end Ratect.ConversionHeader
