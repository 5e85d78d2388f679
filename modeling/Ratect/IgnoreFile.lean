import Ratect.IgnoreVerdict
import Ratect.Loop

/-! # Reading a `.dockerignore`

`read_ignore_file` of `lib.rs`: the lines of the file that are patterns, each trimmed, cleaned and
stripped of a leading `/` behind its `!`.  `PatternMatcher::new` then trims and cleans what it is
given once more, and takes the `!` for part of the first name.

A line is `Odd` if that second pass does not see what the first has made: a climb of two levels
takes the `!` with it, a stripped `/` or `.` uncovers a `!` or a blank, and an exclusion of nothing
is none.  Every other line is compiled as it was read, and is an exclusion exactly if it begins with
`!` (`faithful_iff`). -/

namespace Dockerignore

open Ratect (trim trimStart trimEnd isWhitespace)

/-! ### The lines -/

/-- A line without the byte order mark that may lead the file. -/
def stripMark (index : ℕ) (line : Text) : Text :=
  if index = 0 ∧ line.head? = some '\uFEFF' then line.drop 1 else line

/-- The pattern that a line is, trimmed; nothing for a comment or a blank. -/
def linePattern (index : ℕ) (line : Text) : Option Text :=
  let line := stripMark index line
  if line.head? = some '#' then none
  else if trim line = [] then none
  else some (trim line)

/-- A pattern is negated. -/
def Inverts (pattern : Text) : Prop := pattern.head? = some '!'

instance (pattern : Text) : Decidable (Inverts pattern) := inferInstanceAs (Decidable (_ = _))

/-- What a pattern is without its `!`. -/
def body (pattern : Text) : Text := if Inverts pattern then trim (pattern.drop 1) else pattern

/-- Cleaned, and stripped of a leading `/`. -/
def normalise (body : Text) : Text :=
  if body = [] then body
  else
    let cleaned := cleanText body
    if 1 < cleaned.length ∧ cleaned.head? = some '/' then cleaned.drop 1 else cleaned

/-- What is read of a pattern. -/
def readPattern (pattern : Text) : Text :=
  if Inverts pattern then '!' :: normalise (body pattern) else normalise (body pattern)

/-- The loop of `read_ignore_file`, over the lines as they are read. -/
def readIgnoreFileFrom : ℕ → List (Except String Text) → Except String (List Text)
  | _, [] => .ok []
  | index, line :: lines => do
      let line ← line
      let rest ← readIgnoreFileFrom (index + 1) lines
      match linePattern index line with
      | none => return rest
      | some pattern => return readPattern pattern :: rest

/-- `read_ignore_file`. -/
def readIgnoreFile (lines : List (Except String Text)) : Except String (List Text) :=
  readIgnoreFileFrom 0 lines

/-- The patterns among the lines, in order: trimmed, with no comment and no blank. -/
def linePatternsFrom : ℕ → List (Except String Text) → List Text
  | _, [] => []
  | index, line :: lines =>
      ((line.toOption.bind (linePattern index)).toList) ++ linePatternsFrom (index + 1) lines

/-- The patterns of a file. -/
def linePatterns (lines : List (Except String Text)) : List Text := linePatternsFrom 0 lines

/-- A file that is read yields one pattern for each of its lines that is one, in order. -/
theorem readIgnoreFile_eq {lines : List (Except String Text)} {patterns : List Text}
    (h : readIgnoreFile lines = .ok patterns) :
    patterns = (linePatterns lines).map readPattern := by
  unfold readIgnoreFile at h
  unfold linePatterns
  generalize 0 = index at h ⊢
  induction lines generalizing index patterns with
  | nil =>
      cases h
      rfl
  | cons line lines ih =>
      unfold readIgnoreFileFrom at h
      obtain ⟨text, hline, h⟩ := Except.bind_eq_ok.mp h
      obtain ⟨rest, hrest, h⟩ := Except.bind_eq_ok.mp h
      have hlater := ih _ hrest
      unfold linePatternsFrom
      rw [hline, show (Except.ok text : Except String Text).toOption =
        some text from rfl, Option.bind_some]
      cases hpattern : linePattern index text with
      | none =>
          rw [hpattern] at h
          cases h
          exact hlater
      | some pattern =>
          rw [hpattern] at h
          cases h
          exact congrArg (readPattern pattern :: ·) hlater

/-! ### Lines that the second pass sees differently -/

/-- The path goes up two levels or more. -/
def Climbs (t : Text) : Prop := (t.splitOn '/').take 2 = ["..".toList, "..".toList]

instance (t : Text) : Decidable (Climbs t) := inferInstanceAs (Decidable (_ = _))

/-- The second pass does not see what the first has made of the line. -/
def Odd (pattern : Text) : Prop :=
  if Inverts pattern then
    normalise (body pattern) = [] ∨ normalise (body pattern) = ['/'] ∨
      Climbs (normalise (body pattern)) ∨
      trimEnd (normalise (body pattern)) ≠ normalise (body pattern)
  else
    trim (normalise (body pattern)) ≠ normalise (body pattern) ∨ Inverts (normalise (body pattern))

instance (pattern : Text) : Decidable (Odd pattern) := by
  unfold Odd
  infer_instance

/-- What was read is left as it is by trimming and cleaning, is a pattern, and is negated exactly if
the line is. -/
structure Faithful (pattern : Text) : Prop where
  trimmed : trim (readPattern pattern) = readPattern pattern
  cleaned : cleanText (readPattern pattern) = readPattern pattern
  nonempty : readPattern pattern ≠ []
  excludes : readPattern pattern ≠ ['!']
  polarity : Inverts (readPattern pattern) ↔ Inverts pattern

/-! ### Cleaned texts -/

/-- The text of a path that goes up some levels and then down by names. -/
def IsRelative (t : Text) : Prop := ∃ p, Paths.Ascending p ∧ p ≠ [] ∧ Paths.toText p = t

theorem IsRelative.cleaned {t : Text} (h : IsRelative t) : cleanText t = t := by
  obtain ⟨p, hp, hne, rfl⟩ := h
  unfold cleanText
  rw [hp.ofText_toText hne, hp.clean hne]

theorem IsRelative.ne_nil {t : Text} (h : IsRelative t) : t ≠ [] := by
  obtain ⟨p, hp, hne, rfl⟩ := h
  intro hnil
  have hread := hp.ofText_toText hne
  rw [hnil] at hread
  exact hne hread.symm

/-- What a cleaned path is once a leading `/` is stripped. -/
theorem normalise_cases {t : Text} (ht : t ≠ []) :
    normalise t = ['/'] ∨ normalise t = ['.'] ∨ IsRelative (normalise t) := by
  unfold normalise
  rw [if_neg ht]
  dsimp only
  cases habsolute : Paths.isAbsolute (Paths.ofText t) with
  | true =>
      obtain ⟨names, hnames⟩ := (Paths.proper_ofText t).clean_rooted habsolute
      unfold cleanText
      rw [hnames]
      cases names with
      | nil => exact Or.inl rfl
      | cons n names =>
          right
          right
          have htext : Paths.toText (.root :: (n :: names).map Paths.Component.normal) =
              '/' :: ['/'].intercalate ((n :: names).map Paths.Name.text) := by
            rw [Paths.toText_rooted, List.map_cons, List.intercalate_cons_cons]
            rfl
          have hascending : Paths.Ascending ((n :: names).map Paths.Component.normal) :=
            ⟨0, n :: names, rfl⟩
          have hrest : Paths.toText ((n :: names).map Paths.Component.normal) =
              ['/'].intercalate ((n :: names).map Paths.Name.text) := by
            rw [hascending.toText, List.map_map]
            rfl
          have hlong : 1 < ('/' ::
              Paths.toText ((n :: names).map Paths.Component.normal)).length := by
            have hpos :=
              List.length_pos_of_ne_nil
                (IsRelative.ne_nil ⟨_, hascending, List.cons_ne_nil _ _, rfl⟩)
            rw [List.length_cons]
            omega
          rw [htext, ← hrest, if_pos ⟨hlong, rfl⟩]
          exact ⟨_, hascending, List.cons_ne_nil _ _, rfl⟩
  | false =>
      right
      rcases Paths.clean_relative ((Paths.proper_ofText t).not_mem habsolute) with
          hcur | ⟨hne, hascending⟩
      · left
        unfold cleanText
        rw [hcur]
        rfl
      · right
        have hhead : ¬ (1 < (cleanText t).length ∧ (cleanText t).head? = some '/') :=
          fun h => hascending.head hne h.2
        rw [if_neg hhead]
        exact ⟨_, hascending, hne, rfl⟩

/-- A second cleaning changes nothing. -/
theorem cleanText_normalise {t : Text} (ht : t ≠ []) : cleanText (normalise t) = normalise t := by
  rcases normalise_cases ht with h | h | h
  · rw [h]
    rfl
  · rw [h]
    rfl
  · exact h.cleaned

/-- What a `!` before a text does to its parts. -/
theorem splitOn_bang (t : Text) :
    ('!' :: t).splitOn '/' = (t.splitOn '/').modifyHead ('!' :: ·) := by
  rw [List.splitOn_cons_eq_if_modifyHead, if_neg (by decide)]

/-- With a `!` before its first part a path that does not climb is one of names. -/
theorem IsRelative.inverted {t : Text} (h : IsRelative t) (hclimbs : ¬ Climbs t) :
    IsRelative ('!' :: t) := by
  obtain ⟨p, hp, hne, rfl⟩ := h
  have hsplit := hp.splitOn hne
  unfold Climbs at hclimbs
  rw [hsplit] at hclimbs
  have hfirst : ∃ c names, p = c :: List.map Paths.Component.normal names := by
    obtain ⟨k, names, rfl⟩ := hp
    match k, names with
    | 0, [] => exact absurd rfl hne
    | 0, n :: names => exact ⟨.normal n, names, rfl⟩
    | 1, names => exact ⟨.parent, names, rfl⟩
    | k + 2, names => exact absurd rfl hclimbs
  obtain ⟨c, names, rfl⟩ := hfirst
  obtain ⟨-, hslash, htext, -⟩ := hp.component (c := c) List.mem_cons_self
  have hname : Paths.IsName ('!' :: c.toText) := by
    refine ⟨List.cons_ne_nil _ _, by simp, by simp, ?_⟩
    rw [List.mem_cons, not_or]
    exact ⟨by decide, hslash⟩
  have hnames : Paths.Ascending
      (List.map Paths.Component.normal (⟨'!' :: c.toText, hname⟩ :: names)) :=
    ⟨0, ⟨'!' :: c.toText, hname⟩ :: names, rfl⟩
  refine ⟨_, hnames, List.cons_ne_nil _ _, ?_⟩
  rw [hnames.toText, hp.toText]
  cases names with
  | nil => simp [Paths.Component.toText]
  | cons n names => simp [Paths.Component.toText]

/-- One that climbs is not left as it is. -/
theorem not_cleaned_of_climbs {t : Text} (hclimbs : Climbs t) :
    cleanText ('!' :: t) ≠ '!' :: t := by
  intro hclean
  have hnotdot : '!' :: t ≠ ['.'] := by simp
  obtain ⟨p, hp, hne, htext⟩ := ascending_of_clean hclean (by simp) hnotdot
  have hsplit := hp.splitOn hne
  rw [htext, splitOn_bang] at hsplit
  unfold Climbs at hclimbs
  obtain ⟨rest, hparts⟩ : ∃ rest, t.splitOn '/' = "..".toList :: "..".toList :: rest := by
    match t.splitOn '/', hclimbs with
    | _ :: _ :: rest, h =>
        cases h
        exact ⟨rest, rfl⟩
  rw [hparts] at hsplit
  obtain ⟨k, names, rfl⟩ := hp
  -- The first part is no `..`, so the second would be a name.
  match k, names with
  | 0, [] => cases hsplit
  | 0, [n] =>
      have hrest := (List.cons.inj hsplit).2
      cases hrest
  | 0, n :: m :: names =>
      have hparent := (List.cons.inj (List.cons.inj hsplit).2).1
      exact m.isName.2.2.1 hparent.symm
  | k + 1, names =>
      have hbang := (List.cons.inj hsplit).1
      cases hbang

/-! ### Faithful lines -/

/-- A `!` stops nothing from being trimmed at the end but itself. -/
theorem trim_bang {t : Text} (ht : t ≠ []) : trim ('!' :: t) = '!' :: t ↔ trimEnd t = t := by
  have hstart : trim ('!' :: t) = trimEnd ('!' :: t) := by
    unfold Ratect.trim Ratect.trimStart
    rw [List.dropWhile_cons_of_neg (by decide)]
  rw [hstart]
  unfold Ratect.trimEnd
  rw [List.rdropWhile_eq_self_iff, List.rdropWhile_eq_self_iff]
  constructor
  · intro h hne
    have hlast := h (List.cons_ne_nil _ _)
    rwa [List.getLast_cons ht] at hlast
  · intro h _
    rw [List.getLast_cons ht]
    exact h ht

/-- What is left of a pattern that is not negated is not blank. -/
theorem normalise_ne_nil {t : Text} (ht : t ≠ []) : normalise t ≠ [] := by
  rcases normalise_cases ht with h | h | h
  · rw [h]
    exact List.cons_ne_nil _ _
  · rw [h]
    exact List.cons_ne_nil _ _
  · exact h.ne_nil

/-- **The lines that are compiled as they were read** are those that are not odd. -/
theorem faithful_iff {pattern : Text} (hpattern : pattern ≠ []) :
    Faithful pattern ↔ ¬ Odd pattern := by
  unfold Odd
  by_cases hinverts : Inverts pattern
  · rw [if_pos hinverts]
    have hread : readPattern pattern = '!' :: normalise (body pattern) := if_pos hinverts
    constructor
    · rintro h (hnil | hroot | hclimbs | hblank)
      · exact h.excludes (by rw [hread, hnil])
      · have hcleaned := h.cleaned
        rw [hread, hroot] at hcleaned
        exact absurd hcleaned (by decide)
      · have hcleaned := h.cleaned
        rw [hread] at hcleaned
        exact not_cleaned_of_climbs hclimbs hcleaned
      · have htrimmed := h.trimmed
        rw [hread, trim_bang (fun h => hblank (by rw [h]; rfl))] at htrimmed
        exact hblank htrimmed
    · intro hodd
      rw [not_or, not_or, not_or, not_not] at hodd
      obtain ⟨hnonempty, hnotroot, hclimbs, hend⟩ := hodd
      have hbody : body pattern ≠ [] := fun h => hnonempty (by rw [h]; rfl)
      constructor
      · rw [hread, trim_bang hnonempty]
        exact hend
      · rw [hread]
        rcases normalise_cases hbody with h | h | h
        · exact absurd h hnotroot
        · rw [h]
          rfl
        · exact (h.inverted hclimbs).cleaned
      · rw [hread]
        exact List.cons_ne_nil _ _
      · rw [hread]
        intro h
        exact hnonempty (List.cons.inj h).2
      · rw [hread]
        exact iff_of_true rfl hinverts
  · rw [if_neg hinverts]
    have hbody : body pattern = pattern := if_neg hinverts
    have hread : readPattern pattern = normalise pattern := by
      unfold readPattern
      rw [if_neg hinverts, hbody]
    rw [hbody]
    constructor
    · rintro h (hblank | hbang)
      · exact hblank (hread ▸ h.trimmed)
      · exact hinverts (h.polarity.mp (hread ▸ hbang))
    · intro hodd
      rw [not_or, not_not] at hodd
      obtain ⟨htrimmed, hbang⟩ := hodd
      constructor
      · rw [hread, htrimmed]
      · rw [hread, cleanText_normalise hpattern]
      · rw [hread]
        exact normalise_ne_nil hpattern
      · rw [hread]
        intro h
        exact hbang (by rw [h]; rfl)
      · rw [hread]
        exact iff_of_false hbang hinverts

/-! ### Compiled lines -/

section compiling

variable (foreign : Text → Option Matcher)

/-- A line that is not odd is compiled as it was read. -/
theorem compilePattern_of_faithful {pattern : Text} (h : Faithful pattern) :
    compilePattern foreign (readPattern pattern) = (compile foreign (normalise (body pattern))).map
      fun matchType => some ⟨normalise (body pattern), decide (Inverts pattern), matchType⟩ := by
  unfold compilePattern
  dsimp only
  rw [h.trimmed, if_neg h.nonempty, h.cleaned]
  have hlong : ¬ (decide ((readPattern pattern).head? = some '!') = true ∧
      (readPattern pattern).length = 1) := by
    rintro ⟨hbang, hlength⟩
    obtain ⟨c, hc⟩ := List.length_eq_one_iff.mp hlength
    rw [hc] at hbang
    exact h.excludes (by rw [hc, Option.some.inj (of_decide_eq_true hbang)])
  rw [if_neg hlong]
  by_cases hinverts : Inverts pattern
  · have hread : readPattern pattern = '!' :: normalise (body pattern) := if_pos hinverts
    rw [hread, decide_eq_true hinverts]
    rfl
  · have hread : readPattern pattern = normalise (body pattern) := if_neg hinverts
    have hbang : ¬ (readPattern pattern).head? = some '!' :=
      fun hbang => hinverts (h.polarity.mp hbang)
    rw [decide_eq_false hbang, decide_eq_false hinverts, hread]
    rfl

/-- A pattern is dropped exactly if it is blank. -/
theorem compilePattern_isSome {raw : Text} {compiled : Option Pattern}
    (h : compilePattern foreign raw = .ok compiled) : compiled.isSome = true ↔ trim raw ≠ [] := by
  unfold compilePattern at h
  dsimp only at h
  split at h
  · next hblank =>
      cases h
      simp [hblank]
  · next hsome =>
      split at h
      · cases h
      · cases hcompile : compile foreign (if decide ((cleanText (trim raw)).head? = some '!') then
            (cleanText (trim raw)).drop 1 else cleanText (trim raw)) with
        | error e =>
            rw [hcompile] at h
            cases h
        | ok matchType =>
            rw [hcompile] at h
            cases h
            simp [hsome]

/-- What the compiled pattern of a line is, unless the line is odd. -/
def CompiledFrom (line : Text) (pattern : Pattern) : Prop :=
  ¬ Odd line →
    pattern.cleanedPattern = normalise (body line) ∧ pattern.exclusion = decide (Inverts line)

/-- The compiled patterns are those of the lines that are not dropped, in order. -/
theorem compiled_forall₂ {lines : List Text} (hlines : ∀ line ∈ lines, line ≠ [])
    {compiled : List (Option Pattern)}
    (h : (lines.map readPattern).mapM (compilePattern foreign) = .ok compiled) :
    List.Forall₂ CompiledFrom (lines.filter fun line => trim (readPattern line) ≠ [])
      compiled.reduceOption := by
  induction lines generalizing compiled with
  | nil =>
      cases h
      exact .nil
  | cons line lines ih =>
      rw [List.map_cons, List.mapM_cons] at h
      obtain ⟨first, hfirst, h⟩ := Except.bind_eq_ok.mp h
      obtain ⟨rest, hrest, h⟩ := Except.bind_eq_ok.mp h
      cases h
      have hlater := ih (fun l hl => hlines l (List.mem_cons_of_mem _ hl)) hrest
      have hdropped := compilePattern_isSome foreign hfirst
      cases first with
      | none =>
          have hblank : ¬ trim (readPattern line) ≠ [] := fun h => by simpa using hdropped.mpr h
          rw [List.filter_cons_of_neg (by simpa using hblank), List.reduceOption_cons_of_none]
          exact hlater
      | some pattern =>
          have hkept : trim (readPattern line) ≠ [] := hdropped.mp rfl
          rw [List.filter_cons_of_pos (by simpa using hkept), List.reduceOption_cons_of_some]
          refine .cons (fun hodd => ?_) hlater
          rw [compilePattern_of_faithful foreign
            ((faithful_iff (hlines line List.mem_cons_self)).mpr hodd)] at hfirst
          cases hcompile : compile foreign (normalise (body line)) with
          | error e =>
              rw [hcompile] at hfirst
              cases hfirst
          | ok matchType =>
              rw [hcompile] at hfirst
              cases hfirst
              exact ⟨rfl, rfl⟩

theorem linePatterns_ne_nil {lines : List (Except String Text)} :
    ∀ pattern ∈ linePatterns lines, pattern ≠ [] := by
  unfold linePatterns
  generalize 0 = index
  induction lines generalizing index with
  | nil => exact fun _ h => absurd h List.not_mem_nil
  | cons line lines ih =>
      intro pattern hmem
      unfold linePatternsFrom at hmem
      rcases List.mem_append.mp hmem with hmem | hmem
      · obtain ⟨text, -, hpattern⟩ := Option.bind_eq_some_iff.mp (Option.mem_toList.mp hmem)
        unfold linePattern at hpattern
        dsimp only at hpattern
        split at hpattern
        · cases hpattern
        · split at hpattern
          · cases hpattern
          · next hsome =>
              cases hpattern
              exact hsome
      · exact ih _ pattern hmem

/-- **Reading and compiling a `.dockerignore`.**  Whatever the lines of the file: reading yields one
pattern for each line that is no comment and not blank, in order; trimming and cleaning it again
leaves such a pattern as it is, and it is an exclusion, of something, exactly if the line begins
with `!` — for those lines that are not odd, and no others.  If the patterns compile, there is one
compiled pattern for each of the lines, in order, but for odd ones that are dropped as blank; and
each that is not odd has its text and its polarity. -/
theorem ignore_file_polarity {lines : List (Except String Text)} {patterns : List Text}
    (h : readIgnoreFile lines = .ok patterns) :
    patterns = (linePatterns lines).map readPattern ∧
      (∀ line ∈ linePatterns lines, Faithful line ↔ ¬ Odd line) ∧
      (∀ line ∈ linePatterns lines, trim (readPattern line) = [] → Odd line) ∧
      ∀ matcher, PatternMatcher.new foreign patterns = .ok matcher →
        List.Forall₂ CompiledFrom
          ((linePatterns lines).filter fun line => trim (readPattern line) ≠ [])
          matcher.patterns := by
  have hpatterns := readIgnoreFile_eq h
  refine ⟨hpatterns, ?_, ?_, ?_⟩
  · exact fun line hline => faithful_iff (linePatterns_ne_nil line hline)
  · intro line hline hblank
    by_contra hodd
    have hfaithful := (faithful_iff (linePatterns_ne_nil line hline)).mpr hodd
    exact hfaithful.nonempty (hfaithful.trimmed.symm.trans hblank)
  · intro matcher hmatcher
    obtain ⟨compiled, hcompiled, hmatcher⟩ := Except.bind_eq_ok.mp hmatcher
    cases hmatcher
    rw [hpatterns] at hcompiled
    exact compiled_forall₂ foreign linePatterns_ne_nil hcompiled

end compiling

/-- A file with a comment, and an exclusion of an absolute path. -/
def exampleLines : List (Except String Text) :=
  [.ok "build/".toList, .ok "# kept".toList, .ok "! /build/keep".toList]

/-- Its two patterns, as they are compiled. -/
theorem ignore_file_polarity_example : ∃ matcher,
    PatternMatcher.new (fun _ => none) ["build".toList, "!build/keep".toList] = .ok matcher ∧
      List.Forall₂ CompiledFrom ["build/".toList, "! /build/keep".toList] matcher.patterns := by
  have hread : readIgnoreFile exampleLines = .ok ["build".toList, "!build/keep".toList] := by
    decide +kernel
  have hrun : (PatternMatcher.new (fun _ => none) ["build".toList, "!build/keep".toList]).passes
      (fun _ => true) = true := by
    decide +kernel
  obtain ⟨matcher, hmatcher, -⟩ := Except.exists_of_passes hrun
  refine ⟨matcher, hmatcher, ?_⟩
  have hlines : ((linePatterns exampleLines).filter fun line => trim (readPattern line) ≠ []) =
      ["build/".toList, "! /build/keep".toList] := by
    decide +kernel
  exact hlines ▸ (ignore_file_polarity (fun _ => none) hread).2.2.2 matcher hmatcher

/-- A climb takes the `!` with it: the line is negated, and the one pattern that it is compiled to
is none. -/
theorem climb_loses_polarity :
    readIgnoreFile [.ok "!../../x".toList] = .ok ["!../../x".toList] ∧
      linePatterns [.ok "!../../x".toList] = ["!../../x".toList] ∧ Inverts "!../../x".toList ∧
      cleanText "!../../x".toList = "x".toList ∧
      ∃ matcher, PatternMatcher.new (fun _ => none) ["!../../x".toList] = .ok matcher ∧
        matcher.patterns.map Pattern.exclusion = [false] := by
  have hrun : (PatternMatcher.new (fun _ => none) ["!../../x".toList]).passes
      (fun matcher => decide (matcher.patterns.map Pattern.exclusion = [false])) = true := by
    decide +kernel
  obtain ⟨matcher, hmatcher, htest⟩ := Except.exists_of_passes hrun
  refine ⟨?_, ?_, ?_, ?_, matcher, hmatcher, of_decide_eq_true htest⟩
  · decide +kernel
  · decide +kernel
  · decide
  · decide +kernel

end Dockerignore
