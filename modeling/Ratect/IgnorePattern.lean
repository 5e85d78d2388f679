import Ratect.Paths
import Ratect.Regex
import Ratect.Strings

/-! # Patterns of a `.dockerignore`

`pattern.rs`: how a pattern is compiled to one of four kinds of match, and how a list of compiled
patterns judges a path.  `Regex.parse` reads the expressions that `compile` builds; `foreign` is
what the `regex` crate makes of any other. -/

namespace Dockerignore

abbrev Text := List Char

/-- `Error`. -/
inductive Error where
  | invalidPattern (pattern : Text)
  | emptyExclusion
deriving DecidableEq

/-- A matcher of the `regex` crate. -/
abbrev Matcher := Text → Bool

/-- `MatchType`. -/
inductive MatchType where
  | exact
  | ofPrefix
  | ofSuffix
  | regexp (regex : Matcher)

/-- `Pattern`. -/
structure Pattern where
  cleanedPattern : Text
  exclusion : Bool
  matchType : MatchType

/-- `matches`. -/
def Pattern.matches (pattern : Pattern) (path : Text) : Bool :=
  match pattern.matchType with
  | .exact => path = pattern.cleanedPattern
  | .ofPrefix => (pattern.cleanedPattern.take (pattern.cleanedPattern.length - 2)).isPrefixOf path
  | .ofSuffix =>
      let suffix := pattern.cleanedPattern.drop 2
      suffix.isSuffixOf path || (suffix.head? = some '/' && path = suffix.drop 1)
  | .regexp regex => regex path

/-! ### Compiling a pattern -/

/-- `should_escape`. -/
def shouldEscape (c : Char) : Bool := ".+()|\x7b\x7d$".toList.contains c

/-- `Kind`. -/
inductive Kind where
  | exact
  | ofPrefix
  | ofSuffix
  | regexp
deriving DecidableEq

/-- The variables of the loop of `compile`. -/
structure Compiling where
  regStr : Text
  kind : Kind
  first : Bool
deriving DecidableEq

namespace Compiling

/-- A `**`, with the `/` after it if there is one; `atEnd` if nothing comes after it. -/
def dirs (state : Compiling) (atEnd : Bool) : Compiling :=
  let after : Compiling :=
    if atEnd then
      if state.kind = .exact then { state with kind := .ofPrefix }
      else { state with regStr := state.regStr ++ ".*".toList, kind := .regexp }
    else { state with regStr := state.regStr ++ "(.*/)?".toList, kind := .regexp }
  { after with kind := if state.first then .ofSuffix else after.kind, first := false }

/-- What a wildcard or a class adds. -/
def special (state : Compiling) (added : Text) : Compiling :=
  { regStr := state.regStr ++ added, kind := .regexp, first := false }

/-- What another character adds. -/
def plain (state : Compiling) (added : Text) : Compiling :=
  { state with regStr := state.regStr ++ added, first := false }

/-- The loop of `compile` over the characters that are left. -/
def run (state : Compiling) : Text → Compiling
  | [] => state
  | '*' :: '*' :: '/' :: rest => run (state.dirs rest.isEmpty) rest
  | '*' :: '*' :: rest => run (state.dirs rest.isEmpty) rest
  | '*' :: rest => run (state.special "[^/]*".toList) rest
  | '?' :: rest => run (state.special "[^/]".toList) rest
  | ['\\'] => state.plain ['\\']
  | '\\' :: c :: rest => run (state.special ['\\', c]) rest
  | c :: rest =>
      if shouldEscape c then run (state.plain ['\\', c]) rest
      else if c = '[' ∨ c = ']' then run (state.special [c]) rest
      else run (state.plain [c]) rest

end Compiling

section

variable (foreign : Text → Option Matcher)

/-- `Regex::new`. -/
def newRegex (regStr : Text) : Option Matcher :=
  match Regex.parse regStr with
  | some regex => some regex.isMatch
  | none => foreign regStr

/-- `compile`. -/
def compile (cleanedPattern : Text) : Except Error MatchType :=
  let state := Compiling.run ⟨"^".toList, .exact, true⟩ cleanedPattern
  match state.kind with
  | .exact => .ok .exact
  | .ofPrefix => .ok .ofPrefix
  | .ofSuffix => .ok .ofSuffix
  | .regexp =>
      match newRegex foreign (state.regStr ++ ['$']) with
      | some regex => .ok (.regexp regex)
      | none => .error (.invalidPattern cleanedPattern)

/-! ### A list of patterns -/

/-- `path_clean::clean`, of a string. -/
def cleanText (t : Text) : Text := Paths.toText (Paths.clean (Paths.ofText t))

/-- `PatternMatcher`. -/
structure PatternMatcher where
  patterns : List Pattern
  exclusions : Bool

/-- One pattern of `new`; nothing for one that is blank. -/
def compilePattern (raw : Text) : Except Error (Option Pattern) :=
  let trimmed := Ratect.trim raw
  if trimmed = [] then .ok none
  else
    let cleaned := cleanText trimmed
    let exclusion : Bool := cleaned.head? = some '!'
    if exclusion = true ∧ cleaned.length = 1 then .error .emptyExclusion
    else
      let cleaned := if exclusion then cleaned.drop 1 else cleaned
      (compile foreign cleaned).map fun matchType => some ⟨cleaned, exclusion, matchType⟩

/-- `new`. -/
def PatternMatcher.new (raw : List Text) : Except Error PatternMatcher := do
  let patterns := (← raw.mapM (compilePattern foreign)).reduceOption
  return ⟨patterns, patterns.any (·.exclusion)⟩

end

/-- `parent_of`. -/
def parentOf (path : Text) : Text :=
  if '/' ∈ path then
    let dir := (path.rdropWhile (· ≠ '/')).dropLast
    if dir = [] then ['/'] else cleanText dir
  else ['.']

/-- The paths of the directories above a file, the outermost first. -/
def parentDirs (file : Text) : List Text :=
  let parent := parentOf file
  if parent = ['.'] then []
  else
    let names := parent.splitOn '/'
    (List.range names.length).map fun i => ['/'].intercalate (names.take (i + 1))

/-- `matches_or_parent_matches`, over the patterns that are left. -/
def verdict (file : Text) (dirs : List Text) (matched : Bool) : List Pattern → Bool
  | [] => matched
  | pattern :: patterns =>
      if pattern.exclusion ≠ matched then verdict file dirs matched patterns
      else if pattern.matches file || dirs.any pattern.matches then
        verdict file dirs (!pattern.exclusion) patterns
      else verdict file dirs matched patterns

/-- `matches_or_parent_matches`. -/
def PatternMatcher.matchesOrParentMatches (matcher : PatternMatcher) (path : Text) : Bool :=
  let file := cleanText path
  if file = ['.'] then false else verdict file (parentDirs file) false matcher.patterns

end Dockerignore
