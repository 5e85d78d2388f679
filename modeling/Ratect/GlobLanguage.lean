import Ratect.IgnorePattern
import Ratect.RelativePaths

/-! # The language of an ignore pattern

`Glob.Accepts` says what a pattern matches, from the documented meaning of its wildcards alone: `?`
is a character of a name, `*` is a run of them, and `**` is any number of directories, or anything
at the end of the pattern.  `compile_denotes_glob` says for which patterns the compiled matcher
accepts just that. -/

namespace Dockerignore

/-! ### The language -/

inductive Glob.Token where
  | char (c : Char)
  | one
  | run
  | dirs
deriving DecidableEq

namespace Glob

/-- A pattern, by its wildcards; a `**` includes the `/` after it. -/
def tokens : Text → List Token
  | [] => []
  | '*' :: '*' :: '/' :: rest => .dirs :: tokens rest
  | '*' :: '*' :: rest => .dirs :: tokens rest
  | '*' :: rest => .run :: tokens rest
  | '?' :: rest => .one :: tokens rest
  | c :: rest => .char c :: tokens rest

/-- What a pattern matches. -/
def Accepts : List Token → Text → Prop
  | [], path => path = []
  | .char c :: rest, path => ∃ w, path = c :: w ∧ Accepts rest w
  | .one :: rest, path => ∃ c w, path = c :: w ∧ c ≠ '/' ∧ Accepts rest w
  | .run :: rest, path => ∃ u w, path = u ++ w ∧ '/' ∉ u ∧ Accepts rest w
  | [.dirs], _ => True
  | .dirs :: rest, path => ∃ u w, path = u ++ w ∧ (u = [] ∨ u.getLast? = some '/') ∧ Accepts rest w

/-- The pattern has no class and no escape. -/
def Simple (pattern : Text) : Prop := '[' ∉ pattern ∧ ']' ∉ pattern ∧ '\\' ∉ pattern

/-- A wildcard of the pattern is other than a lone `**` at its start or its end. -/
def NeedsRegex (ts : List Token) : Prop :=
  ∀ cs : Text, ts ≠ cs.map .char ∧ ts ≠ .dirs :: cs.map .char ∧ ts ≠ cs.map .char ++ [.dirs]

/-- The pattern is `**` with a literal text right after it. -/
def LooseLead (pattern : Text) : Prop :=
  ∃ c rest, pattern = '*' :: '*' :: c :: rest ∧ c ≠ '/' ∧ '*' ∉ c :: rest ∧ '?' ∉ c :: rest

/-! ### Tokens -/

theorem tokens_char {c : Char} (hstar : c = '*' → False) (hone : c = '?' → False) (rest : Text) :
    tokens (c :: rest) = .char c :: tokens rest := by
  rw [tokens]
  · exact fun _ hc => absurd hc hstar
  · exact fun _ hc => absurd hc hstar
  · exact hstar
  · exact hone

theorem tokens_dirs {rest : Text} (h : ∀ r, rest = '/' :: r → False) :
    tokens ('*' :: '*' :: rest) = .dirs :: tokens rest := by
  rw [tokens]
  exact h

theorem tokens_run {rest : Text} (h : ∀ r, rest = '*' :: r → False) :
    tokens ('*' :: rest) = .run :: tokens rest := by
  rw [tokens]
  · exact fun r => h ('/' :: r)
  · exact h

/-! ### Compiling by tokens -/

/-- What one token does to the loop of `compile`. -/
def Token.compile (state : Compiling) (atEnd : Bool) : Token → Compiling
  | .char c => state.plain (if shouldEscape c then ['\\', c] else [c])
  | .one => state.special "[^/]".toList
  | .run => state.special "[^/]*".toList
  | .dirs => state.dirs atEnd

/-- The loop of `compile`, over tokens. -/
def compileTokens (state : Compiling) : List Token → Compiling
  | [] => state
  | t :: rest => compileTokens (t.compile state rest.isEmpty) rest

theorem tokens_isEmpty (pattern : Text) : (tokens pattern).isEmpty = pattern.isEmpty := by
  induction pattern using tokens.induct with
  | case1 => rfl
  | case2 | case3 | case4 | case5 | case6 => simp_all [tokens]

theorem Simple.tail {c : Char} {pattern : Text} (h : Simple (c :: pattern)) : Simple pattern :=
  ⟨fun hc => h.1 (.tail _ hc), fun hc => h.2.1 (.tail _ hc), fun hc => h.2.2 (.tail _ hc)⟩

theorem run_eq_compileTokens {pattern : Text} (h : Simple pattern) (state : Compiling) :
    state.run pattern = compileTokens state (tokens pattern) := by
  induction pattern using tokens.induct generalizing state with
  | case1 => rfl
  | case2 rest ih =>
      rw [Compiling.run, tokens, compileTokens, ih h.tail.tail.tail, tokens_isEmpty]
      rfl
  | case3 rest hne ih =>
      rw [Compiling.run, tokens, compileTokens, ih h.tail.tail, tokens_isEmpty]
      · rfl
      · exact hne
      · exact hne
  | case4 rest hne₁ hne₂ ih =>
      rw [Compiling.run, tokens, compileTokens, ih h.tail]
      · rfl
      all_goals assumption
  | case5 rest ih =>
      rw [Compiling.run, tokens, compileTokens, ih h.tail]
      rfl
  | case6 c rest h₁ h₂ h₃ h₄ ih =>
      have hc : ¬ (c = '[' ∨ c = ']') ∧ c ≠ '\\' := by
        refine ⟨?_, ?_⟩
        · rintro (rfl | rfl)
          · exact h.1 List.mem_cons_self
          · exact h.2.1 List.mem_cons_self
        · rintro rfl
          exact h.2.2 List.mem_cons_self
      rw [Compiling.run, tokens, compileTokens, if_neg hc.1, ih h.tail, ih h.tail, Token.compile]
      · split <;> rfl
      · assumption
      · assumption
      · assumption
      · assumption
      · assumption
      · assumption
      · assumption
      · assumption
      · exact fun hc' => absurd hc' hc.2
      · exact fun _ _ hc' => absurd hc' hc.2

/-- The expression that a pattern's tokens add. -/
def render : List Token → Text
  | [] => []
  | .char c :: rest => (if shouldEscape c then ['\\', c] else [c]) ++ render rest
  | .one :: rest => "[^/]".toList ++ render rest
  | .run :: rest => "[^/]*".toList ++ render rest
  | [.dirs] => ".*".toList
  | .dirs :: rest => "(.*/)?".toList ++ render rest

section kinds

variable {state : Compiling} {ts : List Token}

theorem compileTokens_regexp (hfirst : state.first = false) (hkind : state.kind = .regexp) :
    (compileTokens state ts).kind = .regexp := by
  induction ts generalizing state with
  | nil => exact hkind
  | cons t ts ih =>
      rw [compileTokens]
      cases t with
      | char c => exact ih rfl hkind
      | one | run => exact ih rfl rfl
      | dirs =>
          apply ih rfl
          rw [Token.compile, Compiling.dirs, hfirst, hkind]
          cases ts.isEmpty <;> rfl

theorem cons_ne_chars {t : Token} (ht : ∀ c, t ≠ .char c) {cs : Text} : t :: ts ≠ cs.map .char := by
  cases cs with
  | nil => exact List.cons_ne_nil _ _
  | cons c cs =>
      intro h
      exact ht c (List.cons.inj h).1

/-- What the kind is after a leading `**`. -/
theorem compileTokens_ofSuffix (hfirst : state.first = false) (hkind : state.kind = .ofSuffix) :
    (compileTokens state ts).kind = .ofSuffix ∧ (∃ cs : Text, ts = cs.map .char) ∨
      (compileTokens state ts).kind = .regexp ∧ ∀ cs : Text, ts ≠ cs.map .char := by
  induction ts generalizing state with
  | nil => exact .inl ⟨hkind, [], rfl⟩
  | cons t ts ih =>
      rw [compileTokens]
      cases t with
      | char c =>
          rcases @ih (state.plain _) rfl hkind with ⟨hk, cs, rfl⟩ | ⟨hk, hcs⟩
          · exact .inl ⟨hk, c :: cs, rfl⟩
          · refine .inr ⟨hk, ?_⟩
            rintro (_ | ⟨c', cs⟩) h
            · cases h
            · exact hcs cs (List.cons.inj h).2
      | one | run => exact .inr ⟨compileTokens_regexp rfl rfl, fun cs => cons_ne_chars (by simp)⟩
      | dirs =>
          refine .inr ⟨compileTokens_regexp rfl ?_, fun cs => cons_ne_chars (by simp)⟩
          rw [Token.compile, Compiling.dirs, hfirst, hkind]
          cases ts.isEmpty <;> rfl

/-- What the kind is after literal text. -/
theorem compileTokens_exact (hfirst : state.first = false) (hkind : state.kind = .exact) :
    (compileTokens state ts).kind = .exact ∧ (∃ cs : Text, ts = cs.map .char) ∨
      (compileTokens state ts).kind = .ofPrefix ∧ (∃ cs : Text, ts = cs.map .char ++ [.dirs]) ∨
      (compileTokens state ts).kind = .regexp ∧ ∀ cs :
        Text, ts ≠ cs.map .char ∧ ts ≠ cs.map .char ++ [.dirs] := by
  induction ts generalizing state with
  | nil => exact .inl ⟨hkind, [], rfl⟩
  | cons t ts ih =>
      rw [compileTokens]
      have hwild : ∀ cs : Text, (∀ c, t ≠ .char c) → (t = .dirs → ts ≠ []) →
          t :: ts ≠ cs.map .char ∧ t :: ts ≠ cs.map .char ++ [.dirs] := by
        intro cs ht hdirs
        refine ⟨cons_ne_chars ht, ?_⟩
        cases cs with
        | nil =>
            intro h
            exact hdirs (List.cons.inj h).1 (List.cons.inj h).2
        | cons c cs =>
            intro h
            exact ht c (List.cons.inj h).1
      cases t with
      | char c =>
          rcases @ih (state.plain _) rfl hkind with ⟨hk, cs, rfl⟩ | ⟨hk, cs, rfl⟩ | ⟨hk, hcs⟩
          · exact .inl ⟨hk, c :: cs, rfl⟩
          · exact .inr (.inl ⟨hk, c :: cs, rfl⟩)
          · refine .inr (.inr ⟨hk, ?_⟩)
            rintro (_ | ⟨c', cs⟩)
            · exact ⟨List.cons_ne_nil _ _, fun h => by cases h⟩
            · exact ⟨fun h => (hcs cs).1 (List.cons.inj h).2, fun h =>
                (hcs cs).2 (List.cons.inj h).2⟩
      | one | run =>
          exact .inr (.inr ⟨compileTokens_regexp rfl rfl, fun cs => hwild cs (by simp) (by simp)⟩)
      | dirs =>
          cases ts with
          | nil =>
              refine .inr (.inl ⟨?_, [], rfl⟩)
              simp [compileTokens, Token.compile, Compiling.dirs, hfirst, hkind]
          | cons t' ts =>
              refine .inr (.inr ⟨compileTokens_regexp rfl ?_, fun cs => hwild cs (by simp) fun _ =>
                List.cons_ne_nil _ _⟩)
              simp [Token.compile, Compiling.dirs, hfirst]

/-- The kind of a pattern, by its wildcards. -/
theorem compileTokens_kind {regStr : Text} :
    (compileTokens ⟨regStr, .exact, true⟩ ts).kind = .exact ∧ (∃ cs : Text, ts = cs.map .char) ∨
      (compileTokens ⟨regStr, .exact, true⟩ ts).kind = .ofPrefix ∧
        (∃ cs : Text, cs ≠ [] ∧ ts = cs.map .char ++ [.dirs]) ∨
      (compileTokens ⟨regStr, .exact, true⟩ ts).kind = .ofSuffix ∧
        (∃ cs : Text, ts = .dirs :: cs.map .char) ∨
      (compileTokens ⟨regStr, .exact, true⟩ ts).kind = .regexp ∧ NeedsRegex ts := by
  cases ts with
  | nil => exact .inl ⟨rfl, [], rfl⟩
  | cons t ts =>
      rw [compileTokens]
      cases t with
      | char c =>
          rcases @compileTokens_exact (Compiling.plain ⟨regStr, .exact, true⟩ _) ts rfl rfl
            with ⟨hk, cs, rfl⟩ | ⟨hk, cs, rfl⟩ | ⟨hk, hcs⟩
          · exact .inl ⟨hk, c :: cs, rfl⟩
          · exact .inr (.inl ⟨hk, c :: cs, List.cons_ne_nil _ _, rfl⟩)
          · refine .inr (.inr (.inr ⟨hk, ?_⟩))
            rintro (_ | ⟨c', cs⟩)
            · exact ⟨List.cons_ne_nil _ _, fun h => (by cases h), fun h => (by cases h)⟩
            · exact ⟨fun h => (hcs cs).1 (List.cons.inj h).2, fun h => (by cases h),
                fun h => (hcs cs).2 (List.cons.inj h).2⟩
      | one | run =>
          refine .inr (.inr (.inr ⟨compileTokens_regexp rfl rfl, fun cs =>
            ⟨cons_ne_chars (by simp), ?_, ?_⟩⟩))
          · intro h
            cases (List.cons.inj h).1
          · cases cs with
            | nil => exact fun h => (by cases (List.cons.inj h).1)
            | cons c cs => exact fun h => (by cases (List.cons.inj h).1)
      | dirs =>
          have hfirst : (Token.compile ⟨regStr, .exact, true⟩ ts.isEmpty .dirs).first = false := rfl
          have hkind : (Token.compile ⟨regStr, .exact, true⟩ ts.isEmpty .dirs).kind = .ofSuffix :=
            rfl
          rcases @compileTokens_ofSuffix _ ts hfirst hkind with ⟨hk, cs, rfl⟩ | ⟨hk, hcs⟩
          · exact .inr (.inr (.inl ⟨hk, cs, rfl⟩))
          · refine .inr (.inr (.inr ⟨hk, fun cs => ⟨cons_ne_chars (by simp), ?_, ?_⟩⟩))
            · exact fun h => hcs cs (List.cons.inj h).2
            · cases cs with
              | nil => exact fun h => hcs [] (List.cons.inj h).2
              | cons c cs => exact fun h => (by cases (List.cons.inj h).1)

theorem compileTokens_regStr (h : (compileTokens state ts).kind = .regexp) :
    (compileTokens state ts).regStr = state.regStr ++ render ts := by
  induction ts generalizing state with
  | nil => simp [compileTokens, render]
  | cons t ts ih =>
      rw [compileTokens] at h ⊢
      rw [ih h]
      cases t with
      | char c => simp [Token.compile, Compiling.plain, render]
      | one | run => simp [Token.compile, Compiling.special, render]
      | dirs =>
          cases ts with
          | nil =>
              -- a `**` at the end makes a regular expression only where there was one
              revert h
              simp only [compileTokens, Token.compile, Compiling.dirs, List.isEmpty_nil, if_true]
              split_ifs <;> simp [render]
          | cons t' ts => simp [Token.compile, Compiling.dirs, render]

end kinds

/-! ### Patterns and their tokens -/

theorem tokens_eq_chars {pattern cs : Text} (h : tokens pattern = cs.map .char) : pattern = cs := by
  induction pattern using tokens.induct generalizing cs with
  | case1 => simpa [tokens] using h
  | case2 rest ih =>
      rw [tokens] at h
      exact absurd h (cons_ne_chars (by simp))
  | case3 rest hne ih =>
      rw [tokens_dirs hne] at h
      exact absurd h (cons_ne_chars (by simp))
  | case4 rest _ hne ih =>
      rw [tokens_run hne] at h
      exact absurd h (cons_ne_chars (by simp))
  | case5 rest ih =>
      rw [tokens] at h
      exact absurd h (cons_ne_chars (by simp))
  | case6 c rest h₁ h₂ h₃ h₄ ih =>
      rw [tokens_char h₃ h₄] at h
      cases cs with
      | nil => cases h
      | cons c' cs =>
          obtain ⟨hc, hrest⟩ := List.cons.inj h
          rw [ih hrest, Token.char.inj hc]

/-- A pattern whose one wildcard is a `**` at its end. -/
theorem tokens_eq_ofPrefix {pattern cs : Text} (h : tokens pattern = cs.map .char ++ [.dirs])
    (hend : pattern.getLast? ≠ some '/') : pattern = cs ++ ['*', '*'] := by
  induction pattern using tokens.induct generalizing cs with
  | case1 => simp [tokens] at h
  | case2 rest ih =>
      rw [tokens] at h
      cases cs with
      | nil =>
          have hrest : rest = [] :=
            tokens_eq_chars (show tokens rest = List.map .char [] from (List.cons.inj h).2)
          simp [hrest] at hend
      | cons c cs => cases (List.cons.inj h).1
  | case3 rest hne ih =>
      rw [tokens_dirs hne] at h
      cases cs with
      | nil =>
          have hrest : rest = [] :=
            tokens_eq_chars (show tokens rest = List.map .char [] from (List.cons.inj h).2)
          rw [hrest, List.nil_append]
      | cons c cs => cases (List.cons.inj h).1
  | case4 rest _ hne ih =>
      rw [tokens_run hne] at h
      cases cs <;> cases (List.cons.inj h).1
  | case5 rest ih =>
      rw [tokens] at h
      cases cs <;> cases (List.cons.inj h).1
  | case6 c rest h₁ h₂ h₃ h₄ ih =>
      rw [tokens_char h₃ h₄] at h
      cases cs with
      | nil => cases (List.cons.inj h).1
      | cons c' cs =>
          obtain ⟨hc, hrest⟩ := List.cons.inj h
          rw [ih hrest (by cases rest <;> simp_all [tokens]), Token.char.inj hc, List.cons_append]

/-- A pattern whose one wildcard is a `**` at its start. -/
theorem tokens_eq_ofSuffix {pattern cs : Text} (h : tokens pattern = .dirs :: cs.map .char) :
    pattern = '*' :: '*' :: '/' :: cs ∨ pattern = '*' :: '*' :: cs ∧ cs.head? ≠ some '/' := by
  induction pattern using tokens.induct with
  | case1 => cases h
  | case2 rest ih =>
      rw [tokens] at h
      rw [tokens_eq_chars (List.cons.inj h).2]
      exact .inl rfl
  | case3 rest hne ih =>
      rw [tokens_dirs hne] at h
      obtain rfl := tokens_eq_chars (List.cons.inj h).2
      refine .inr ⟨rfl, fun hhead => ?_⟩
      obtain ⟨r, rfl⟩ := List.head?_eq_some_iff.mp hhead
      exact hne r rfl
  | case4 rest _ hne ih =>
      rw [tokens_run hne] at h
      cases (List.cons.inj h).1
  | case5 rest ih =>
      rw [tokens] at h
      cases (List.cons.inj h).1
  | case6 c rest h₁ h₂ h₃ h₄ ih =>
      rw [tokens_char h₃ h₄] at h
      cases (List.cons.inj h).1

/-- A character that is no part of a wildcard is a token of its own. -/
theorem mem_tokens {c : Char} (hstar : c ≠ '*') (hone : c ≠ '?') (hslash : c ≠ '/')
    {pattern : Text} : .char c ∈ tokens pattern ↔ c ∈ pattern := by
  induction pattern using tokens.induct with
  | case1 => simp [tokens]
  | case2 rest ih => simp [tokens, ih, hstar, hslash]
  | case3 rest hne ih => simp [tokens_dirs hne, ih, hstar]
  | case4 rest _ hne ih => simp [tokens_run hne, ih, hstar]
  | case5 rest ih => simp [tokens, ih, hone]
  | case6 c' rest h₁ h₂ h₃ h₄ ih => simp [tokens_char h₃ h₄, ih]

theorem simple_tokens {pattern : Text} (h : Simple pattern) {c : Char}
    (hc : .char c ∈ tokens pattern) : c ≠ '[' ∧ c ≠ ']' ∧ c ≠ '\\' ∧ c ≠ '*' ∧ c ≠ '?' := by
  induction pattern using tokens.induct with
  | case1 => cases hc
  | case2 rest ih => exact ih h.tail.tail.tail (by simpa [tokens] using hc)
  | case3 rest hne ih => exact ih h.tail.tail (by simpa [tokens_dirs hne] using hc)
  | case4 rest _ hne ih => exact ih h.tail (by simpa [tokens_run hne] using hc)
  | case5 rest ih => exact ih h.tail (by simpa [tokens] using hc)
  | case6 c' rest h₁ h₂ h₃ h₄ ih =>
      rw [tokens_char h₃ h₄, List.mem_cons] at hc
      rcases hc with hc | hc
      · obtain rfl := Token.char.inj hc
        refine ⟨?_, ?_, ?_, h₃, h₄⟩
        · rintro rfl
          exact h.1 List.mem_cons_self
        · rintro rfl
          exact h.2.1 List.mem_cons_self
        · rintro rfl
          exact h.2.2 List.mem_cons_self
      · exact ih h.tail hc

/-! ### The regular expression of a pattern -/

/-- The items of the expression that a pattern's tokens add. -/
def items : List Token → List Regex
  | [] => []
  | .char c :: rest => (if c = '^' then .start else .one (.char c)) :: items rest
  | .one :: rest => .one (.except '/') :: items rest
  | .run :: rest => .star (.one (.except '/')) :: items rest
  | [.dirs] => [.star (.one .dot)]
  | .dirs :: rest => .opt (Regex.catAll [.star (.one .dot), .one (.char '/')]) :: items rest

/-- No character of the tokens has a meaning in a pattern. -/
def Literals (ts : List Token) : Prop :=
  ∀ c, .char c ∈ ts → c ≠ '[' ∧ c ≠ ']' ∧ c ≠ '\\' ∧ c ≠ '*' ∧ c ≠ '?'

theorem Literals.tail {t : Token} {ts : List Token} (h : Literals (t :: ts)) : Literals ts :=
  fun c hc => h c (.tail _ hc)

/-- The tokens of the expression that a pattern's tokens add. -/
def regexTokens : List Token → List Regex.Token
  | [] => []
  | .char c :: rest => .atom (if c = '^' then .start else .one (.char c)) :: regexTokens rest
  | .one :: rest => .atom (.one (.except '/')) :: regexTokens rest
  | .run :: rest => .atom (.one (.except '/')) :: .star :: regexTokens rest
  | [.dirs] => [.atom (.one .dot), .star]
  | .dirs :: rest =>
      .openGroup :: .atom (.one .dot) :: .star :: .atom (.one (.char '/')) :: .closeGroup ::
        .opt :: regexTokens rest

/-- A literal character, escaped where that is needed: all but `^`. -/
theorem tokens_literal {c : Char} (h : c ≠ '[' ∧ c ≠ ']' ∧ c ≠ '\\' ∧ c ≠ '*' ∧ c ≠ '?')
    (s : Text) :
    Regex.tokens ((if shouldEscape c then ['\\', c] else [c]) ++ s) =
      (Regex.tokens s).map (.atom (if c = '^' then .start else .one (.char c)) :: ·) := by
  have hmeta : Regex.isMeta c = (shouldEscape c || c = '^') := by
    simp only [Regex.isMeta, shouldEscape, List.contains_eq_mem]
    simp [h]
    grind
  split
  · next hescape =>
      have hcaret : c ≠ '^' := by
        rintro rfl
        revert hescape
        decide
      rw [if_neg hcaret]
      exact Regex.tokens_escaped (by simp [hmeta, hescape]) s
  · next hescape =>
      split
      · next hcaret =>
          subst hcaret
          exact Regex.tokens_cons (by decide) (by decide) s
      · next hcaret => exact Regex.tokens_char (by simp [hmeta, hescape, hcaret]) s

theorem tokens_render {ts : List Token} (h : Literals ts) (s : Text) :
    Regex.tokens (render ts ++ s) = (Regex.tokens s).map (regexTokens ts ++ ·) := by
  have hsymbol : ∀ (c : Char) (t : Regex.Token) (rest : Text),
      c ≠ '\\' → c ≠ '[' → Regex.token c = some t →
      Regex.tokens (c :: rest) = (Regex.tokens rest).map (t :: ·) := by
    intro c t rest hescape hclass ht
    rw [Regex.tokens_cons hescape hclass, ht]
    rfl
  have hname : ∀ rest, Regex.tokens ("[^/]".toList ++ rest) =
      (Regex.tokens rest).map (.atom (.one (.except '/')) :: ·) :=
    fun rest => Regex.tokens_except rfl rest
  induction ts using render.induct with
  | case1 => simp [render, regexTokens]
  | case2 c rest ih =>
      rw [render, List.append_assoc, tokens_literal (h c List.mem_cons_self),
        ih h.tail, Option.map_map]
      rfl
  | case3 rest ih =>
      rw [render, List.append_assoc, hname, ih h.tail, Option.map_map]
      rfl
  | case4 rest ih =>
      have hsplit : "[^/]*".toList = "[^/]".toList ++ ['*'] := rfl
      rw [render, hsplit, List.append_assoc, List.append_assoc, hname, List.singleton_append,
        hsymbol '*' .star _ (by decide) (by decide) rfl, ih h.tail, Option.map_map, Option.map_map]
      rfl
  | case5 =>
      have hsplit : ".*".toList ++ s = '.' :: '*' :: s := rfl
      rw [render, hsplit, hsymbol '.' (.atom (.one .dot)) _ (by decide) (by decide) rfl,
        hsymbol '*' .star _ (by decide) (by decide) rfl, Option.map_map]
      rfl
  | case6 rest hne ih =>
      have hsplit : "(.*/)?".toList ++ render rest ++ s =
          '(' :: '.' :: '*' :: '/' :: ')' :: '?' :: (render rest ++ s) := rfl
      rw [render, hsplit, hsymbol '(' .openGroup _ (by decide) (by decide) rfl,
        hsymbol '.' (.atom (.one .dot)) _ (by decide) (by decide) rfl,
        hsymbol '*' .star _ (by decide) (by decide) rfl,
        hsymbol '/' (.atom (.one (.char '/'))) _ (by decide) (by decide) rfl,
        hsymbol ')' .closeGroup _ (by decide) (by decide) rfl,
        hsymbol '?' .opt _ (by decide) (by decide) rfl, ih h.tail]
      simp only [Option.map_map]
      rw [regexTokens]
      · rfl
      · exact hne
      · exact hne

theorem foldlM_regexTokens (ts : List Token) (more : List Regex.Token) (reading : Regex.Reading) :
    (regexTokens ts ++ more).foldlM Regex.Reading.push reading =
      more.foldlM Regex.Reading.push
        { reading with items := (items ts).reverse ++ reading.items } := by
  induction ts using items.induct generalizing reading with
  | case1 => simp [regexTokens, items]
  | case2 c rest ih =>
      rw [regexTokens, items, List.cons_append, List.foldlM_cons]
      simp [Regex.Reading.push, ih]
  | case3 rest ih =>
      rw [regexTokens, items, List.cons_append, List.foldlM_cons]
      simp [Regex.Reading.push, ih]
  | case4 rest ih =>
      rw [regexTokens, items, List.cons_append, List.foldlM_cons]
      simp [Regex.Reading.push, Regex.repeatable, ih]
  | case5 => simp [regexTokens, items, Regex.Reading.push, Regex.repeatable]
  | case6 rest hne ih =>
      rw [regexTokens, items]
      · simp [Regex.Reading.push, Regex.repeatable, Regex.catAll, ih]
      all_goals exact hne

/-- The expression that `compile` builds, read. -/
theorem parse_regStr {ts : List Token} (h : Literals ts) :
    Regex.parse ("^".toList ++ render ts ++ ['$']) =
      some (Regex.catAll (.start :: items ts ++ [.finish])) := by
  have htokens : Regex.tokens ("^".toList ++ render ts ++ ['$']) =
      some (.atom .start :: (regexTokens ts ++ [.atom .finish])) := by
    have hstart := Regex.tokens_cons (c := '^') (by decide) (by decide) (render ts ++ ['$'])
    have hfinish : Regex.tokens ['$'] = some [.atom .finish] := rfl
    rw [tokens_render h, hfinish] at hstart
    exact hstart
  rw [Regex.parse, htokens]
  simp only [Option.bind_eq_bind, Option.bind_some, List.foldlM_cons, Regex.Reading.push]
  rw [foldlM_regexTokens]
  simp [Regex.Reading.push]

theorem items_dirs {rest : List Token} (h : rest = [] → False) : items (.dirs :: rest) =
    .opt (Regex.catAll [.star (.one .dot), .one (.char '/')]) :: items rest := by
  rw [items]
  exact h

theorem accepts_dirs {rest : List Token} (h : rest = [] → False) {path : Text} :
    Accepts (.dirs :: rest) path ↔
    ∃ u w, path = u ++ w ∧ (u = [] ∨ u.getLast? = some '/') ∧ Accepts rest w := by
  rw [Accepts]
  exact h

/-! ### What it reads -/

theorem dot_accepts {w : Text} (h : '\n' ∉ w) : ∀ c ∈ w, Regex.One.dot.accepts c = true := by
  rintro c hc
  rw [Regex.One.accepts_dot]
  rintro rfl
  exact h hc

/-- Without `^`, the expression of a pattern reads what the pattern matches. -/
theorem reads_items {ts : List Token} (hcaret : .char '^' ∉ ts) {before w after : Text}
    (hw : '\n' ∉ w) : Regex.Reads (Regex.catAll (items ts)) before w after ↔ Accepts ts w := by
  induction ts using items.induct generalizing before w with
  | case1 => exact Regex.reads_empty
  | case2 c rest ih =>
      have hc : c ≠ '^' := by
        rintro rfl
        exact hcaret List.mem_cons_self
      have hrest : .char '^' ∉ rest := fun h => hcaret (.tail _ h)
      rw [items, if_neg hc, Accepts]
      constructor
      · intro h
        obtain ⟨u, v, rfl, hu, hv⟩ := Regex.reads_cat.mp h
        obtain ⟨d, rfl, hd⟩ := Regex.reads_one.mp hu
        obtain rfl := Regex.One.accepts_char.mp hd
        exact ⟨v, rfl, (ih hrest fun hv => hw (.tail _ hv)).mp hv⟩
      · rintro ⟨v, rfl, hv⟩
        exact Regex.reads_cat.mpr ⟨[c], v, rfl, .one (Regex.One.accepts_char.mpr rfl),
          (ih hrest fun hv => hw (.tail _ hv)).mpr hv⟩
  | case3 rest ih =>
      have hrest : .char '^' ∉ rest := fun h => hcaret (.tail _ h)
      rw [items, Accepts]
      constructor
      · intro h
        obtain ⟨u, v, rfl, hu, hv⟩ := Regex.reads_cat.mp h
        obtain ⟨d, rfl, hd⟩ := Regex.reads_one.mp hu
        exact ⟨d, v, rfl, Regex.One.accepts_except.mp hd,
          (ih hrest fun hv => hw (.tail _ hv)).mp hv⟩
      · rintro ⟨d, v, rfl, hd, hv⟩
        exact Regex.reads_cat.mpr ⟨[d], v, rfl, .one (Regex.One.accepts_except.mpr hd),
          (ih hrest fun hv => hw (.tail _ hv)).mpr hv⟩
  | case4 rest ih =>
      have hrest : .char '^' ∉ rest := fun h => hcaret (.tail _ h)
      have hrun : ∀ u : Text, (∀ c ∈ u, (Regex.One.except '/').accepts c = true) ↔ '/' ∉ u := by
        intro u
        simp only [Regex.One.accepts_except]
        exact ⟨fun h hmem => h _ hmem rfl, fun h c hc hslash => h (hslash ▸ hc)⟩
      rw [items, Accepts]
      constructor
      · intro h
        obtain ⟨u, v, rfl, hu, hv⟩ := Regex.reads_cat.mp h
        refine ⟨u, v, rfl, (hrun u).mp (Regex.reads_star_one.mp hu),
          (ih hrest fun hv => hw ?_).mp hv⟩
        exact List.mem_append_right _ hv
      · rintro ⟨u, v, rfl, hu, hv⟩
        refine Regex.reads_cat.mpr ⟨u, v, rfl, Regex.reads_star_one.mpr ((hrun u).mpr hu), ?_⟩
        exact (ih hrest fun hv => hw (List.mem_append_right _ hv)).mpr hv
  | case5 =>
      rw [items, Accepts]
      refine ⟨fun _ => trivial, fun _ => ?_⟩
      exact Regex.reads_cat.mpr ⟨w, [], by simp, Regex.reads_star_one.mpr (dot_accepts hw), .empty⟩
  | case6 rest hne ih =>
      have hrest : .char '^' ∉ rest := fun h => hcaret (.tail _ h)
      rw [items_dirs hne, accepts_dirs hne]
      constructor
      · intro h
        obtain ⟨u, v, rfl, hu, hv⟩ := Regex.reads_cat.mp h
        refine ⟨u, v, rfl, ?_, (ih hrest fun hv => hw (List.mem_append_right _ hv)).mp hv⟩
        rcases Regex.reads_opt.mp hu with rfl | hu
        · exact .inl rfl
        · obtain ⟨x, y, rfl, -, hy⟩ := Regex.reads_cat.mp hu
          obtain ⟨y, z, rfl, hy, hz⟩ := Regex.reads_cat.mp hy
          obtain ⟨d, rfl, hd⟩ := Regex.reads_one.mp hy
          obtain rfl := Regex.reads_empty.mp hz
          obtain rfl := Regex.One.accepts_char.mp hd
          exact .inr (by simp)
      · rintro ⟨u, v, rfl, hu, hv⟩
        have hv' : Regex.Reads (Regex.catAll (items rest)) (before ++ u) v after :=
          (ih hrest fun hv => hw (List.mem_append_right _ hv)).mpr hv
        refine Regex.reads_cat.mpr ⟨u, v, rfl, Regex.reads_opt.mpr ?_, hv'⟩
        rcases hu with rfl | hu
        · exact .inl rfl
        · obtain ⟨x, rfl⟩ := List.getLast?_eq_some_iff.mp hu
          have hx : '\n' ∉ x := fun hx => hw (by simp [hx])
          refine .inr (Regex.reads_cat.mpr
            ⟨x, ['/'], rfl, Regex.reads_star_one.mpr (dot_accepts hx), ?_⟩)
          exact Regex.reads_cat.mpr ⟨['/'], [], rfl, .one (Regex.One.accepts_char.mpr rfl), .empty⟩

/-- What a pattern matches has the characters of the pattern. -/
theorem Accepts.mem {ts : List Token} {path : Text} (h : Accepts ts path) {c : Char}
    (hc : .char c ∈ ts) : c ∈ path := by
  induction ts using items.induct generalizing path with
  | case1 => cases hc
  | case2 d rest ih =>
      obtain ⟨w, rfl, hw⟩ := h
      rcases List.mem_cons.mp hc with hc | hc
      · rw [Token.char.inj hc]
        exact List.mem_cons_self
      · exact .tail _ (ih hw hc)
  | case3 rest ih =>
      obtain ⟨d, w, rfl, -, hw⟩ := h
      exact .tail _ (ih hw (by simpa using hc))
  | case4 rest ih =>
      obtain ⟨u, w, rfl, -, hw⟩ := h
      exact List.mem_append_right _ (ih hw (by simpa using hc))
  | case5 => simp at hc
  | case6 rest hne ih =>
      obtain ⟨u, w, rfl, -, hw⟩ := (accepts_dirs hne).mp h
      exact List.mem_append_right _ (ih hw (by simpa using hc))

/-- So has what its expression reads, but for `^`. -/
theorem reads_items_mem {ts : List Token} {before w after : Text}
    (h : Regex.Reads (Regex.catAll (items ts)) before w after) {c : Char} (hc : .char c ∈ ts)
    (hcaret : c ≠ '^') : c ∈ w := by
  induction ts using items.induct generalizing before w with
  | case1 => cases hc
  | case2 d rest ih =>
      obtain ⟨u, v, rfl, hu, hv⟩ := Regex.reads_cat.mp h
      rcases List.mem_cons.mp hc with hc | hc
      · obtain rfl := Token.char.inj hc
        rw [if_neg hcaret] at hu
        obtain ⟨e, rfl, he⟩ := Regex.reads_one.mp hu
        obtain rfl := Regex.One.accepts_char.mp he
        exact List.mem_cons_self
      · exact List.mem_append_right _ (ih hv hc)
  | case3 rest ih | case4 rest ih =>
      obtain ⟨u, v, rfl, -, hv⟩ := Regex.reads_cat.mp h
      exact List.mem_append_right _ (ih hv (by simpa using hc))
  | case5 => simp at hc
  | case6 rest hne ih =>
      rw [items_dirs hne] at h
      obtain ⟨u, v, rfl, -, hv⟩ := Regex.reads_cat.mp h
      exact List.mem_append_right _ (ih hv (by simpa using hc))

/-- The shortest match of a pattern, an `x` for each `?`. -/
def sample : List Token → Text
  | [] => []
  | .char c :: rest => c :: sample rest
  | .one :: rest => 'x' :: sample rest
  | .run :: rest | .dirs :: rest => sample rest

theorem accepts_sample (ts : List Token) : Accepts ts (sample ts) := by
  induction ts using items.induct with
  | case1 => rfl
  | case2 c rest ih => exact ⟨sample rest, rfl, ih⟩
  | case3 rest ih => exact ⟨'x', sample rest, rfl, by decide, ih⟩
  | case4 rest ih => exact ⟨[], sample rest, rfl, List.not_mem_nil, ih⟩
  | case5 => trivial
  | case6 rest hne ih => exact (accepts_dirs hne).mpr ⟨[], sample rest, rfl, .inl rfl, ih⟩

theorem mem_sample {ts : List Token} {c : Char} (h : c ∈ sample ts) : .char c ∈ ts ∨ c = 'x' := by
  induction ts using sample.induct with
  | case1 => cases h
  | case2 d rest ih =>
      rcases List.mem_cons.mp h with rfl | h
      · exact .inl List.mem_cons_self
      · exact (ih h).imp_left (.tail _)
  | case3 rest ih =>
      rcases List.mem_cons.mp h with rfl | h
      · exact .inr rfl
      · exact (ih h).imp_left (.tail _)
  | case4 rest ih | case5 rest ih => exact (ih h).imp_left (.tail _)

/-- An `x` for each `^`. -/
def blur (c : Char) : Char := if c = '^' then 'x' else c

theorem blur_ne {c d : Char} (h : c ≠ d) (hx : 'x' ≠ d) : blur c ≠ d := by
  rw [blur]
  split
  · exact hx
  · exact h

/-- The expression of a pattern cannot tell a `^` from an `x`. -/
theorem items_blur (ts : List Token) :
    ∀ k ∈ (Regex.catAll (items ts)).ones, ∀ c, k.accepts c = true →
    k.accepts (blur c) = true := by
  have hexcept : ∀ c, (Regex.One.except '/').accepts c = true →
      (Regex.One.except '/').accepts (blur c) = true := by
    intro c hc
    rw [Regex.One.accepts_except] at hc ⊢
    exact blur_ne hc (by decide)
  have hdot : ∀ c, Regex.One.dot.accepts c = true → Regex.One.dot.accepts (blur c) = true := by
    intro c hc
    rw [Regex.One.accepts_dot] at hc ⊢
    exact blur_ne hc (by decide)
  have hchar : ∀ d, d ≠ '^' → ∀ c, (Regex.One.char d).accepts c = true →
      (Regex.One.char d).accepts (blur c) = true := by
    intro d hd c hc
    obtain rfl := Regex.One.accepts_char.mp hc
    rw [blur, if_neg hd]
    exact hc
  induction ts using items.induct with
  | case1 => simp [items, Regex.catAll, Regex.ones]
  | case2 c rest ih =>
      intro k hk
      rcases List.mem_append.mp hk with hk | hk
      · split at hk
        · cases hk
        · next hc =>
            obtain rfl := List.mem_singleton.mp hk
            exact hchar c hc
      · exact ih k hk
  | case3 rest ih | case4 rest ih =>
      intro k hk
      rcases List.mem_append.mp hk with hk | hk
      · obtain rfl := List.mem_singleton.mp hk
        exact hexcept
      · exact ih k hk
  | case5 =>
      intro k hk
      obtain rfl : k = .dot := by simpa [items, Regex.catAll, Regex.ones] using hk
      exact hdot
  | case6 rest hne ih =>
      rw [items_dirs hne]
      intro k hk
      rcases List.mem_append.mp hk with hk | hk
      · have hk : k = .dot ∨ k = .char '/' := by simpa [Regex.catAll, Regex.ones] using hk
        rcases hk with rfl | rfl
        · exact hdot
        · exact hchar '/' (by decide)
      · exact ih k hk

/-- Where a pattern has a `^`, its expression does not read what the pattern matches: it would read
the shortest match, and so also that match with another character for each `^`. -/
theorem reads_items_caret {ts : List Token} (hcaret : .char '^' ∈ ts) (hnewline : .char '\n' ∉ ts) :
    ∃ path, '\n' ∉ path ∧
      ¬ (Regex.Reads (Regex.catAll (items ts)) [] path [] ↔ Accepts ts path) := by
  have hsample : '\n' ∉ sample ts := by
    intro h
    rcases mem_sample h with h | h
    · exact hnewline h
    · cases h
  by_contra hnone
  have hall : ∀ path,
      '\n' ∉ path → (Regex.Reads (Regex.catAll (items ts)) [] path [] ↔ Accepts ts path) :=
    fun path hpath => by_contra fun h => hnone ⟨path, hpath, h⟩
  have hreads := ((hall _ hsample).mpr (accepts_sample ts)).map (items_blur ts)
  have hblurred : '\n' ∉ (sample ts).map blur := by
    intro h
    obtain ⟨c, hc, hblur⟩ := List.mem_map.mp h
    refine blur_ne (d := '\n') ?_ (by decide) hblur
    rintro rfl
    exact hsample hc
  have hmem := ((hall _ hblurred).mp hreads).mem hcaret
  obtain ⟨c, -, hblur⟩ := List.mem_map.mp hmem
  rw [blur] at hblur
  split at hblur
  · cases hblur
  · next hc => exact hc hblur

end Glob

/-! ### The compiled matcher -/

section matcher

variable (foreign : Text → Option Matcher)

/-- The matcher that `pattern` is compiled to accepts `path`. -/
def accepts (pattern path : Text) : Bool :=
  match compile foreign pattern with
  | .ok matchType => Pattern.matches ⟨pattern, false, matchType⟩ path
  | .error _ => false

/-- `compile` is given a cleaned text, or what follows the `!` of one. -/
def Cleaned (pattern : Text) : Prop :=
  ∃ raw, cleanText raw = pattern ∨ cleanText raw = '!' :: pattern

theorem Cleaned.getLast {pattern : Text} (h : Cleaned pattern) :
    pattern.getLast? ≠ some '/' ∨ pattern = ['/'] := by
  obtain ⟨raw, h⟩ := h
  have hproper := (Paths.proper_ofText raw).clean
  have hlast : cleanText raw = ['/'] ∨ (cleanText raw).getLast? ≠ some '/' := by
    by_cases hroot : Paths.clean (Paths.ofText raw) = [.root]
    · exact .inl (by rw [cleanText, hroot]; rfl)
    · exact .inr (Paths.toText_getLast hproper hroot)
  rcases h with h | h
  · rw [h] at hlast
    exact hlast.symm
  · rw [h] at hlast
    rcases hlast with hlast | hlast
    · cases hlast
    · left
      cases pattern with
      | nil => exact nofun
      | cons c pattern => simpa using hlast

variable {foreign} {pattern path : Text}

theorem accepts_regexp (hsimple : Glob.Simple pattern)
    (hkind : (Glob.compileTokens ⟨"^".toList, .exact, true⟩ (Glob.tokens pattern)).kind = .regexp) :
    accepts foreign pattern path = true ↔
      Regex.Reads (Regex.catAll (Glob.items (Glob.tokens pattern))) [] path [] := by
  have hliterals : Glob.Literals (Glob.tokens pattern) := fun c hc => Glob.simple_tokens hsimple hc
  have hparse := Glob.parse_regStr hliterals
  have hcompile : compile foreign pattern =
      .ok (.regexp (Regex.catAll
        (.start :: Glob.items (Glob.tokens pattern) ++ [.finish])).isMatch) := by
    rw [compile, Glob.run_eq_compileTokens hsimple, hkind,
      Glob.compileTokens_regStr hkind, newRegex, hparse]
  rw [accepts, hcompile]
  exact Regex.isMatch_iff.trans Regex.matches_anchored

theorem accepts_exact (hsimple : Glob.Simple pattern)
    (hkind : (Glob.compileTokens ⟨"^".toList, .exact, true⟩ (Glob.tokens pattern)).kind = .exact) :
    accepts foreign pattern path = true ↔ path = pattern := by
  rw [accepts, compile, Glob.run_eq_compileTokens hsimple, hkind]
  exact decide_eq_true_iff

theorem accepts_ofPrefix (hsimple : Glob.Simple pattern)
    (hkind : (Glob.compileTokens ⟨"^".toList, .exact, true⟩ (Glob.tokens pattern)).kind =
      .ofPrefix) :
    accepts foreign pattern path = true ↔ pattern.take (pattern.length - 2) <+: path := by
  rw [accepts, compile, Glob.run_eq_compileTokens hsimple, hkind]
  exact List.isPrefixOf_iff_prefix

theorem accepts_ofSuffix (hsimple : Glob.Simple pattern)
    (hkind : (Glob.compileTokens ⟨"^".toList, .exact, true⟩ (Glob.tokens pattern)).kind =
      .ofSuffix) :
    accepts foreign pattern path = true ↔
      pattern.drop 2 <:+ path ∨
        (pattern.drop 2).head? = some '/' ∧ path = (pattern.drop 2).drop 1 := by
  rw [accepts, compile, Glob.run_eq_compileTokens hsimple, hkind]
  simp [Pattern.matches]

/-! ### Its language -/

/-- A literal text matches itself. -/
theorem Glob.accepts_chars {cs : Text} {w : Text} : Glob.Accepts (cs.map .char) w ↔ w = cs := by
  induction cs generalizing w with
  | nil => exact Iff.rfl
  | cons c cs ih =>
      constructor
      · rintro ⟨v, rfl, hv⟩
        rw [ih.mp hv]
      · rintro rfl
        exact ⟨cs, rfl, ih.mpr rfl⟩

/-- A literal text and a `**` match what the text begins. -/
theorem Glob.accepts_chars_dirs {cs : Text} {w : Text} :
    Glob.Accepts (cs.map .char ++ [.dirs]) w ↔ cs <+: w := by
  induction cs generalizing w with
  | nil => exact ⟨fun _ => List.nil_prefix, fun _ => trivial⟩
  | cons c cs ih =>
      constructor
      · rintro ⟨v, rfl, hv⟩
        exact List.cons_prefix_cons.mpr ⟨rfl, ih.mp hv⟩
      · intro h
        obtain ⟨v, rfl⟩ := h
        exact ⟨cs ++ v, rfl, ih.mpr ⟨v, rfl⟩⟩

/-- A `**` and a literal text match the text alone or after a separator. -/
theorem Glob.accepts_dirs_chars {cs : Text} (hne : cs ≠ []) {w : Text} :
    Glob.Accepts (.dirs :: cs.map .char) w ↔ w = cs ∨ '/' :: cs <:+ w := by
  rw [Glob.accepts_dirs (by simpa using hne)]
  constructor
  · rintro ⟨u, v, rfl, hu, hv⟩
    obtain rfl := Glob.accepts_chars.mp hv
    rcases hu with rfl | hu
    · exact .inl rfl
    · obtain ⟨x, rfl⟩ := List.getLast?_eq_some_iff.mp hu
      exact .inr ⟨x, by simp⟩
  · rintro (rfl | ⟨x, rfl⟩)
    · exact ⟨[], w, rfl, .inl rfl, Glob.accepts_chars.mpr rfl⟩
    · exact ⟨x ++ ['/'], cs, by simp, .inr (by simp), Glob.accepts_chars.mpr rfl⟩

theorem Glob.tokens_literal_text {t : Text} (hstar : '*' ∉ t) (hone : '?' ∉ t) :
    Glob.tokens t = t.map .char := by
  induction t with
  | nil => rfl
  | cons c t ih =>
      rw [List.mem_cons, not_or] at hstar hone
      rw [Glob.tokens_char (fun h => hstar.1 h.symm) (fun h => hone.1 h.symm),
        ih hstar.2 hone.2, List.map_cons]

theorem Glob.LooseLead.tokens (h : Glob.LooseLead pattern) :
    ∃ cs : Text, Glob.tokens pattern = .dirs :: cs.map .char := by
  obtain ⟨c, rest, rfl, hslash, hstar, hone⟩ := h
  refine ⟨c :: rest, ?_⟩
  rw [Glob.tokens_dirs, Glob.tokens_literal_text hstar hone]
  intro r hr
  exact hslash (List.cons.inj hr).1

/-- What the matcher of a pattern accepts, by the pattern's wildcards. -/
inductive Shape (pattern : Text) (accepted : Text → Prop) : Prop
  | exact {cs : Text} : Glob.tokens pattern = cs.map .char → (∀ path, accepted path ↔ path = cs) →
      Shape pattern accepted
  | ofPrefix {cs : Text} : cs ≠ [] → Glob.tokens pattern = cs.map .char ++ [.dirs] →
      (∀ path, accepted path ↔ cs <+: path) →
      Shape pattern accepted
  | afterDirs {cs : Text} : cs ≠ [] → pattern = '*' :: '*' :: '/' :: cs →
      Glob.tokens pattern = .dirs :: cs.map .char →
      (∀ path, accepted path ↔ path = cs ∨ '/' :: cs <:+ path) → Shape pattern accepted
  | ofSuffix {cs : Text} : pattern = '*' :: '*' :: cs → cs.head? ≠ some '/' →
      Glob.tokens pattern = .dirs :: cs.map .char → (∀ path, accepted path ↔ cs <:+ path) →
        Shape pattern accepted
  | regexp : Glob.NeedsRegex (Glob.tokens pattern) →
      (∀ path, accepted path ↔
        Regex.Reads (Regex.catAll (Glob.items (Glob.tokens pattern))) [] path []) →
      Shape pattern accepted

theorem shape (hclean : Cleaned pattern) (hsimple : Glob.Simple pattern) :
    Shape pattern fun path => accepts foreign pattern path = true := by
  have hlast := hclean.getLast
  rcases @Glob.compileTokens_kind (Glob.tokens pattern) "^".toList with
    ⟨hkind, cs, hts⟩ | ⟨hkind, cs, hne, hts⟩ | ⟨hkind, cs, hts⟩ | ⟨hkind, hneeds⟩
  · refine .exact hts fun path => ?_
    rw [accepts_exact hsimple hkind, Glob.tokens_eq_chars hts]
  · refine .ofPrefix hne hts fun path => ?_
    have hend : pattern.getLast? ≠ some '/' := by
      rcases hlast with hlast | rfl
      · exact hlast
      · intro _
        cases cs with
        | nil => exact hne rfl
        | cons c cs =>
            have := (List.cons.inj hts).2
            simp [Glob.tokens] at this
    rw [accepts_ofPrefix hsimple hkind, Glob.tokens_eq_ofPrefix hts hend]
    simp
  · rcases Glob.tokens_eq_ofSuffix hts with hpattern | ⟨hpattern, hhead⟩
    · have hne : cs ≠ [] := by
        rintro rfl
        rw [hpattern] at hlast
        rcases hlast with hlast | hlast
        · exact hlast rfl
        · cases hlast
      refine .afterDirs hne hpattern hts fun path => ?_
      rw [accepts_ofSuffix hsimple hkind, hpattern]
      simp [or_comm]
    · refine .ofSuffix hpattern hhead hts fun path => ?_
      rw [accepts_ofSuffix hsimple hkind, hpattern]
      simp [hhead]
  · exact .regexp hneeds fun path => accepts_regexp hsimple hkind

/-- A newline of the pattern is in all it accepts. -/
theorem Shape.newline {accepted : Text → Prop} (h : Shape pattern accepted)
    (hpattern : .char '\n' ∈ Glob.tokens pattern)
    {path : Text} (haccepted : accepted path) : '\n' ∈ path := by
  have hchars : ∀ cs : Text, Glob.Token.char '\n' ∈ cs.map Glob.Token.char ↔ '\n' ∈ cs := by simp
  cases h with
  | exact hts hiff =>
      rw [(hiff path).mp haccepted]
      exact (hchars _).mp (hts ▸ hpattern)
  | ofPrefix hne hts hiff =>
      rw [hts] at hpattern
      exact ((hiff path).mp haccepted).subset ((hchars _).mp (by simpa using hpattern))
  | @afterDirs cs hne _ hts hiff =>
      rw [hts] at hpattern
      have hcs : '\n' ∈ cs := (hchars cs).mp (by simpa using hpattern)
      rcases (hiff path).mp haccepted with rfl | hsuffix
      · exact hcs
      · exact hsuffix.subset (.tail _ hcs)
  | ofSuffix _ _ hts hiff =>
      rw [hts] at hpattern
      exact ((hiff path).mp haccepted).subset ((hchars _).mp (by simpa using hpattern))
  | regexp _ hiff => exact Glob.reads_items_mem ((hiff path).mp haccepted) hpattern (by decide)

/-- A pattern is compiled to a matcher of its language, if it has no `^` where a regular expression
is needed for it and does not begin with a `**` before a literal text: there a `^` is an anchor, and
that `**` is any text at all.  A pattern with a line break matches nothing either way. -/
theorem compile_denotes_glob (foreign : Text → Option Matcher) {pattern : Text}
    (hclean : Cleaned pattern) (hsimple : Glob.Simple pattern) :
    (∀ path : Text, '\n' ∉ path →
        (accepts foreign pattern path = true ↔ Glob.Accepts (Glob.tokens pattern) path)) ↔
      '\n' ∈ pattern ∨
        ¬ (Glob.NeedsRegex (Glob.tokens pattern) ∧ '^' ∈ pattern) ∧ ¬ Glob.LooseLead pattern := by
  have hshape : Shape pattern fun path => accepts foreign pattern path = true :=
    shape hclean hsimple
  have hmem : ∀ c, c ≠ '*' → c ≠ '?' → c ≠ '/' → (.char c ∈ Glob.tokens pattern ↔ c ∈ pattern) :=
    fun c hstar hone hslash => Glob.mem_tokens hstar hone hslash
  have hnewline := hmem '\n' (by decide) (by decide) (by decide)
  have hcaret := hmem '^' (by decide) (by decide) (by decide)
  by_cases hpattern : '\n' ∈ pattern
  · refine ⟨fun _ => .inl hpattern, fun _ path hpath => ⟨fun h => ?_, fun h => ?_⟩⟩
    · exact absurd (hshape.newline (hnewline.mpr hpattern) h) hpath
    · exact absurd (h.mem (hnewline.mpr hpattern)) hpath
  · rw [or_iff_right hpattern]
    cases hshape with
    | @exact cs hts hiff =>
        refine iff_of_true (fun path _ => ?_) ⟨fun h => (h.1 cs).1 hts, fun h => ?_⟩
        · rw [hiff path, hts, Glob.accepts_chars]
        · obtain ⟨ds, hds⟩ := h.tokens
          rw [hds] at hts
          exact absurd hts (Glob.cons_ne_chars (by simp))
    | @ofPrefix cs hne hts hiff =>
        refine iff_of_true (fun path _ => ?_) ⟨fun h => (h.1 cs).2.2 hts, fun h => ?_⟩
        · rw [hiff path, hts, Glob.accepts_chars_dirs]
        · obtain ⟨ds, hds⟩ := h.tokens
          rw [hds] at hts
          cases cs with
          | nil => exact hne rfl
          | cons c cs => cases (List.cons.inj hts).1
    | @afterDirs cs hne hpat hts hiff =>
        refine iff_of_true (fun path _ => ?_) ⟨fun h => (h.1 cs).2.1 hts, fun h => ?_⟩
        · rw [hiff path, hts, Glob.accepts_dirs_chars hne]
        · obtain ⟨c, rest, hloose, hslash, -⟩ := h
          rw [hpat] at hloose
          exact hslash (List.cons.inj (List.cons.inj (List.cons.inj hloose).2).2).1.symm
    | @ofSuffix cs hpat hhead hts hiff =>
        cases cs with
        | nil =>
            refine iff_of_true (fun path _ => ?_) ⟨fun h => (h.1 []).2.1 hts, fun h => ?_⟩
            · rw [hiff path, hts]
              exact ⟨fun _ => trivial, fun _ => List.nil_suffix⟩
            · obtain ⟨c, rest, hloose, -⟩ := h
              rw [hpat] at hloose
              cases hloose
        | cons c cs =>
            have hliteral : ∀ d ∈ c :: cs, d ≠ '*' ∧ d ≠ '?' := by
              intro d hd
              have hd' : Glob.Token.char d ∈ Glob.tokens pattern := by
                rw [hts]
                exact .tail _ (List.mem_map_of_mem hd)
              exact (Glob.simple_tokens hsimple hd').2.2.2
            have hloose : Glob.LooseLead pattern := by
              refine ⟨c, cs, hpat, fun hc => hhead (by simp [hc]), fun h => ?_, fun h => ?_⟩
              · exact (hliteral _ h).1 rfl
              · exact (hliteral _ h).2 rfl
            refine iff_of_false (fun h => ?_) fun h => h.2 hloose
            -- the text is let through behind any character
            have hpath : '\n' ∉ 'x' :: c :: cs := by
              rw [List.mem_cons, not_or]
              refine ⟨by decide, fun h => hpattern ?_⟩
              rw [hpat]
              exact .tail _ (.tail _ h)
            have haccepted := (h _ hpath).mp ((hiff _).mpr (List.suffix_cons _ _))
            rw [hts, Glob.accepts_dirs_chars (List.cons_ne_nil _ _)] at haccepted
            rcases haccepted with heq | hsuffix
            · simpa using congrArg List.length heq
            · have heq := hsuffix.eq_of_length (by simp)
              cases (List.cons.inj heq).1
    | regexp hneeds hiff =>
        have hloose : ¬ Glob.LooseLead pattern := by
          intro h
          obtain ⟨cs, hcs⟩ := h.tokens
          exact (hneeds cs).2.1 hcs
        by_cases hcaret' : '^' ∈ pattern
        · refine iff_of_false (fun h => ?_) fun h => h.1 ⟨hneeds, hcaret'⟩
          obtain ⟨path, hpath, hdiffer⟩ :=
            Glob.reads_items_caret (hcaret.mpr hcaret') fun h => hpattern (hnewline.mp h)
          exact hdiffer ((hiff path).symm.trans (h path hpath))
        · refine iff_of_true (fun path hpath => ?_) ⟨fun h => hcaret' h.2, hloose⟩
          rw [hiff path]
          exact Glob.reads_items (fun h => hcaret' (hcaret.mp h)) hpath

end matcher

/-- `*.txt` is compiled to its language. -/
theorem compile_denotes_glob_txt : Glob.Simple "*.txt".toList ∧ ∀ path : Text, '\n' ∉ path →
    (accepts (fun _ => none) "*.txt".toList path = true ↔
      Glob.Accepts (Glob.tokens "*.txt".toList) path) := by
  have hsimple : Glob.Simple "*.txt".toList := ⟨by decide, by decide, by decide⟩
  refine ⟨hsimple, (compile_denotes_glob
    (fun _ => none) ⟨"*.txt".toList, .inl (by decide +kernel)⟩ hsimple).mpr
    (.inr ⟨?_, ?_⟩)⟩
  · exact fun h => absurd h.2 (by decide)
  · rintro ⟨c, rest, h, -⟩
    cases h

/-- `a^*` matches `a^b`, and its matcher does not accept it. -/
theorem caret_is_anchor : Cleaned "a^*".toList ∧ Glob.Simple "a^*".toList ∧ '\n' ∉ "a^b".toList ∧
    Glob.Accepts (Glob.tokens "a^*".toList) "a^b".toList ∧
      accepts (fun _ => none) "a^*".toList "a^b".toList = false := by
  refine ⟨⟨"a^*".toList, .inl (by decide +kernel)⟩,
    ⟨by decide, by decide, by decide⟩, by decide, ?_,
    by decide +kernel⟩
  exact ⟨_, rfl, _, rfl, "b".toList, [], rfl, by decide, rfl⟩

end Dockerignore
