import Ratect.IgnorePattern
import Ratect.RelativePaths

/-! # The last pattern that matches decides

`verdict` skips a pattern that could not change what is found so far, which loses nothing
(`verdict_iff`); and the directories it tries are all those above the path (`mem_parentDirs`). -/

namespace Dockerignore

/-- `dir` is a directory above `path`. -/
def IsAncestor (dir path : Text) : Prop := ∃ rest, path = dir ++ '/' :: rest

/-- The pattern matches the path, or a directory above it. -/
def MatchesUnder (pattern : Pattern) (path : Text) : Prop :=
  pattern.matches path = true ∨ ∃ dir, IsAncestor dir path ∧ pattern.matches dir = true

/-- The last of the patterns that satisfies `Matched` exists, and is no exclusion. -/
def LastMatchIncludes (Matched : Pattern → Prop) (patterns : List Pattern) : Prop :=
  ∃ before pattern after, patterns = before ++ pattern :: after ∧ Matched pattern ∧
    (∀ later ∈ after, ¬ Matched later) ∧ pattern.exclusion = false

theorem lastMatchIncludes_cons {Matched : Pattern → Prop} {pattern : Pattern}
    {patterns : List Pattern} :
    LastMatchIncludes Matched (pattern :: patterns) ↔ LastMatchIncludes Matched patterns ∨
      Matched pattern ∧ pattern.exclusion = false ∧ ∀ later ∈ patterns, ¬ Matched later := by
  constructor
  · rintro ⟨before, last, after, heq, hlast, hlater, hexclusion⟩
    cases before with
    | nil =>
        obtain ⟨rfl, rfl⟩ := List.cons.inj heq
        exact .inr ⟨hlast, hexclusion, hlater⟩
    | cons first before =>
        obtain ⟨-, rfl⟩ := List.cons.inj heq
        exact .inl ⟨before, last, after, rfl, hlast, hlater, hexclusion⟩
  · rintro (⟨before, last, after, rfl, h⟩ | ⟨hmatched, hexclusion, hlater⟩)
    · exact ⟨pattern :: before, last, after, rfl, h⟩
    · exact ⟨[], pattern, patterns, rfl, hmatched, hlater, hexclusion⟩

theorem LastMatchIncludes.congr {Matched Matched' : Pattern → Prop} {patterns : List Pattern}
    (h : ∀ pattern, Matched pattern ↔ Matched' pattern) :
    LastMatchIncludes Matched patterns ↔ LastMatchIncludes Matched' patterns := by
  have heq : Matched = Matched' := funext fun pattern => propext (h pattern)
  rw [heq]

/-! ### The loop over the patterns -/

section verdict

variable {file : Text} {dirs : List Text}

/-- The pattern matches the file, or one of the directories the loop is given. -/
def MatchesAmong (file : Text) (dirs : List Text) (pattern : Pattern) : Prop :=
  (pattern.matches file || dirs.any pattern.matches) = true

instance (pattern : Pattern) : Decidable (MatchesAmong file dirs pattern) :=
  inferInstanceAs (Decidable (_ = true))

/-- What is found so far stays where no pattern that is left matches, and is settled by the last
that does otherwise. -/
theorem verdict_iff (matched : Bool) (patterns : List Pattern) :
    verdict file dirs matched patterns = true ↔
    LastMatchIncludes (MatchesAmong file dirs) patterns ∨
      matched = true ∧ ∀ pattern ∈ patterns, ¬ MatchesAmong file dirs pattern := by
  induction patterns generalizing matched with
  | nil =>
      constructor
      · exact fun h => .inr ⟨h, by simp⟩
      · rintro (⟨before, pattern, after, h, -⟩ | ⟨h, -⟩)
        · simp at h
        · exact h
  | cons pattern patterns ih =>
      rw [verdict, lastMatchIncludes_cons, List.forall_mem_cons]
      by_cases hskip : pattern.exclusion ≠ matched
      · -- a match of a pattern that is skipped would leave what is found as it is
        rw [if_pos hskip, ih matched]
        by_cases hmatch : MatchesAmong file dirs pattern
        · cases matched with
          | false => simp [hmatch, Bool.eq_true_of_not_eq_false hskip]
          | true => simp [hmatch, Bool.eq_false_of_not_eq_true hskip]
        · simp [hmatch]
      · have hexclusion : pattern.exclusion = matched := not_ne_iff.mp hskip
        rw [if_neg hskip]
        by_cases hmatch : MatchesAmong file dirs pattern
        · have hcond : (pattern.matches file || dirs.any pattern.matches) = true := hmatch
          rw [if_pos hcond, ih]
          simp [hmatch]
        · have hcond : ¬ (pattern.matches file || dirs.any pattern.matches) = true := hmatch
          rw [if_neg hcond, ih matched]
          simp [hmatch]

end verdict

/-! ### The directories above a path -/

/-- The text is that of a cleaned relative path other than `.`. -/
theorem ascending_of_clean {path : Text} (hclean : cleanText path = path)
    (hrelative : path.head? ≠ some '/') (hdot : path ≠ ['.']) :
    ∃ p, Paths.Ascending p ∧ p ≠ [] ∧ Paths.toText p = path := by
  have hroot : Paths.Component.root ∉ Paths.ofText path := by
    unfold Paths.ofText Paths.lead
    rw [if_neg hrelative, List.mem_append, not_or]
    refine ⟨?_, Paths.root_not_mem_components _⟩
    split <;> simp
  rcases Paths.clean_relative hroot with hcur | ⟨hne, hascending⟩
  · rw [cleanText, hcur] at hclean
    exact absurd hclean.symm hdot
  · exact ⟨_, hascending, hne, hclean⟩

/-- The directory of a path with a name after it. -/
theorem parentOf_append {dir name : Text} (hdir : dir ≠ []) (hclean : cleanText dir = dir)
    (hname : '/' ∉ name) : parentOf (dir ++ '/' :: name) = dir := by
  have hdrop : (dir ++ '/' :: name).rdropWhile (· ≠ '/') = dir ++ ['/'] := by
    have hreverse : (dir ++ '/' :: name).reverse = name.reverse ++ '/' :: dir.reverse := by simp
    rw [List.rdropWhile, hreverse, List.dropWhile_append_of_pos]
    · simp
    · intro c hc
      simp only [ne_eq, decide_eq_true_eq]
      rintro rfl
      exact hname (List.mem_reverse.mp hc)
  rw [parentOf, if_pos (by simp), hdrop, List.dropLast_concat, if_neg hdir, hclean]

/-- The directories that are tried are all those above the path. -/
theorem mem_parentDirs {path : Text} (hclean : cleanText path = path)
    (hrelative : path.head? ≠ some '/') (hdot : path ≠ ['.']) {dir : Text} :
    dir ∈ parentDirs path ↔ IsAncestor dir path := by
  obtain ⟨p, hp, hne, htext⟩ := ascending_of_clean hclean hrelative hdot
  have hslash : ∀ t ∈ p.map Paths.Component.toText, '/' ∉ t := by
    intro t ht
    obtain ⟨c, hc, rfl⟩ := List.mem_map.mp ht
    exact (hp.component hc).2.1
  have habove : IsAncestor dir path ↔ ∃ i, 0 < i ∧ i < p.length ∧
      dir = ['/'].intercalate ((p.map Paths.Component.toText).take i) := by
    rw [IsAncestor, ← htext, hp.toText]
    simp only [Paths.intercalate_eq_append hslash, List.length_map]
    constructor
    · rintro ⟨rest, i, hpos, hlt, hdir, -⟩
      exact ⟨i, hpos, hlt, hdir⟩
    · rintro ⟨i, hpos, hlt, hdir⟩
      exact ⟨_, i, hpos, hlt, hdir, rfl⟩
  rw [habove]
  rcases p.eq_nil_or_concat with rfl | ⟨q, c, rfl⟩
  · contradiction
  rw [List.concat_eq_append] at *
  have hq : Paths.Ascending q := by simpa using hp.dropLast
  by_cases hnil : q = []
  · -- a name alone has nothing above it
    subst hnil
    have hname : '/' ∉ path := by
      rw [← htext, hp.toText]
      simpa using hslash
    rw [parentDirs, parentOf, if_neg hname, if_pos rfl]
    constructor
    · exact fun h => absurd h List.not_mem_nil
    · rintro ⟨i, hpos, hlt, -⟩
      simp only [List.nil_append, List.length_singleton] at hlt
      omega
  · have hcleanq : cleanText (Paths.toText q) = Paths.toText q := by
      rw [cleanText, hq.ofText_toText hnil, hq.clean hnil]
    have hqdot : Paths.toText q ≠ ['.'] := by
      intro hdot
      have hcur : Paths.ofText (Paths.toText q) = [.cur] := by
        rw [hdot]
        decide
      rw [hq.ofText_toText hnil] at hcur
      subst hcur
      exact (hq.component List.mem_cons_self).2.2.2 rfl
    have hqne : Paths.toText q ≠ [] := by
      intro hempty
      have := hq.ofText_toText hnil
      rw [hempty] at this
      exact hnil this.symm
    have hparent : parentOf path = Paths.toText q := by
      have hpath : path = Paths.toText q ++ '/' :: c.toText := by
        rw [← htext, hp.toText, hq.toText, Paths.intercalate_take_drop (i := q.length)]
        · simp
        · exact List.length_pos_iff.mpr hnil
        · simp
      rw [hpath]
      exact parentOf_append hqne hcleanq (hslash _ (by simp))
    rw [parentDirs, hparent, if_neg hqdot, hq.splitOn hnil]
    simp only [List.length_map, List.mem_map, List.mem_range, List.map_append, List.map_singleton,
      List.length_append, List.length_singleton]
    constructor
    · rintro ⟨i, hi, rfl⟩
      refine ⟨i + 1, by omega, by omega, ?_⟩
      rw [List.take_append_of_le_length (by simpa using hi)]
    · rintro ⟨i, hpos, hlt, rfl⟩
      refine ⟨i - 1, by omega, ?_⟩
      have hi : i - 1 + 1 = i := by omega
      rw [hi, List.take_append_of_le_length (by simp; omega)]

/-- The last pattern that matches the path or a directory above it decides, but for `.`, which is
never matched. -/
theorem last_match_wins (matcher : PatternMatcher) {path : Text} (hclean : cleanText path = path)
    (hrelative : path.head? ≠ some '/') :
    matcher.matchesOrParentMatches path = true ↔
      path ≠ ['.'] ∧
        LastMatchIncludes (fun pattern => MatchesUnder pattern path) matcher.patterns := by
  rw [PatternMatcher.matchesOrParentMatches, hclean]
  by_cases hdot : path = ['.']
  · simp [hdot]
  · have hmatches : ∀ pattern, MatchesAmong path (parentDirs path) pattern ↔
        MatchesUnder pattern path := by
      intro pattern
      simp [MatchesAmong, MatchesUnder, mem_parentDirs hclean hrelative hdot]
    rw [if_neg hdot, verdict_iff, LastMatchIncludes.congr hmatches]
    simp [hdot]

/-- A directory is excluded, and one file in it included again. -/
theorem last_match_wins_docs :
    PatternMatcher.matchesOrParentMatches
        ⟨[⟨"docs".toList, false, .exact⟩, ⟨"docs/README.md".toList, true, .exact⟩], true⟩
          "docs/guide.md".toList = true ↔
      "docs/guide.md".toList ≠ ['.'] ∧
        LastMatchIncludes (fun pattern => MatchesUnder pattern "docs/guide.md".toList)
        [⟨"docs".toList, false, .exact⟩, ⟨"docs/README.md".toList, true, .exact⟩] :=
  last_match_wins ⟨[⟨"docs".toList, false, .exact⟩, ⟨"docs/README.md".toList, true, .exact⟩], true⟩
    (by decide +kernel) (by decide)

/-- `.` is a clean relative path that `**` matches, and it is not judged by the patterns. -/
theorem dot_not_judged : cleanText ".".toList = ".".toList ∧ ".".toList.head? ≠ some '/' ∧
    LastMatchIncludes (fun pattern => MatchesUnder pattern ".".toList)
      [⟨"**".toList, false, .ofSuffix⟩] ∧
      PatternMatcher.matchesOrParentMatches ⟨[⟨"**".toList, false, .ofSuffix⟩], false⟩
        ".".toList = false := by
  refine ⟨by decide +kernel, by decide, ?_, by decide +kernel⟩
  exact ⟨[], ⟨"**".toList, false, .ofSuffix⟩, [], rfl, .inl (by decide), by simp, rfl⟩

end Dockerignore
