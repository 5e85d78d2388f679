import Ratect.ExpressionGrammar

/-! # References as they were read before

`references_before_0_12` (`written_for.rs`): the reader that 0.11.0 had.  It knew no escape, its
names were ASCII, and what started no reference it could read was text.  A text that holds no `\`,
and whose references both readers give alike, evaluates to itself with each of these references
replaced (`interpolate_eq_replace`). -/

namespace Ratect.WrittenFor

open Expressions (Token Error Sigil DefaultPart Reference Piece Splits tokensFrom walk)

/-! ### The earlier reader -/

/-- `name_start` of `reference_before_0_12`. -/
def nameStart (c : Char) : Bool := c.isAlpha || c == '_'

/-- `name_char` of `reference_before_0_12`. -/
def nameChar (sigil c : Char) : Bool := c.isAlphanum || c == '_' || (sigil == '<' && c == '.')

/-- `str::split_once` at `:-`. -/
def splitDefault : Text → Option (Text × Text)
  | ':' :: '-' :: rest => some ([], rest)
  | c :: rest => (splitDefault rest).map fun parts => (c :: parts.1, parts.2)
  | [] => none

/-- The name and the default between braces; only a `$` takes a default. -/
def splitInner (sigil : Char) (inner : Text) : Text × Option Text :=
  match splitDefault inner with
  | some (name, default) => if sigil = '$' then (name, some default) else (inner, none)
  | none => (inner, none)

/-- Whether an unbraced reference could have the name. -/
def validName (sigil : Char) (name : Text) : Bool :=
  name.head?.any nameStart && name.all (nameChar sigil)

/-- `reference_before_0_12`: the reference at the position `start`, which `sigil` is at. -/
def referenceBefore (start : ℕ) (sigil : Char) (rest : Text) : Option Token :=
  if sigil ≠ '$' ∧ sigil ≠ '<' then none
  else
    match rest with
    | [] => none
    | '{' :: braced =>
        if '}' ∉ braced then none
        else
          let inner := braced.takeWhile (· ≠ '}')
          let (name, default) := splitInner sigil inner
          if validName sigil name = false then none
          else
            some
              { start := start, len := inner.length + 3, sigil := sigil, name := name,
                default := default }
    | first :: after =>
        if nameStart first = false then none
        else
          let name := (first :: after).takeWhile (nameChar sigil)
          some
            { start := start, len := name.length + 1, sigil := sigil, name := name,
              default := none }

theorem referenceBefore_len_pos {start : ℕ} {sigil : Char} {rest : Text} {token : Token}
    (h : referenceBefore start sigil rest = some token) : 0 < token.len := by
  unfold referenceBefore at h
  split_ifs at h
  split at h
  · cases h
  · split_ifs at h
    dsimp only at h
    split_ifs at h
    cases h
    exact Nat.succ_pos _
  · split_ifs at h
    cases h
    exact Nat.succ_pos _

/-- The loop of `references_before_0_12`, from the position `start` on. -/
def referencesFrom (start : ℕ) (chars : Text) : List Token :=
  match chars with
  | [] => []
  | sigil :: rest =>
      match _h : referenceBefore start sigil rest with
      | some token => token :: referencesFrom (start + token.len) ((sigil :: rest).drop token.len)
      | none => referencesFrom (start + 1) rest
termination_by chars.length
decreasing_by
  · have := referenceBefore_len_pos _h
    simp only [List.length_drop, List.length_cons]
    omega
  · simp

/-- `references_before_0_12`. -/
def referencesBefore (value : Text) : List Token := referencesFrom 0 value

/-! ### References replaced -/

/-- The text from the position `i` on, with each reference replaced by its value; the first that has
none fails. -/
def replaceFrom (valueOf : Token → Except Error Text) (i : ℕ) :
    List Token → Text → Except Error Text
  | [], chars => .ok chars
  | token :: tokens, chars => do
      let value ← valueOf token
      let after ← replaceFrom valueOf (token.start + token.len) tokens
        (chars.drop (token.start + token.len - i))
      return chars.take (token.start - i) ++ value ++ after

/-- The text with each of its references replaced by what the variables give it. -/
def replaceReferences (tokens : List Token) (text : Text) (hostEnv : Text → Option Text)
    (configVars : Text → Option (Option Text)) : Except Error Text :=
  replaceFrom (fun token =>
    Expressions.resolve token.sigil token.name token.default hostEnv configVars) 0 tokens text

variable {valueOf : Token → Except Error Text} {unicode : Char → Bool}

/-- A character before the first reference is kept. -/
theorem replaceFrom_plain {i : ℕ} {tokens : List Token} (h : ∀ token ∈ tokens, i + 1 ≤ token.start)
    (c : Char) (chars : Text) :
    replaceFrom valueOf i tokens (c :: chars) =
      (replaceFrom valueOf (i + 1) tokens chars).map (c :: ·) := by
  cases tokens with
  | nil => rfl
  | cons token tokens =>
      have hstart : i + 1 ≤ token.start := h token List.mem_cons_self
      have htake : token.start - i = token.start - (i + 1) + 1 := by omega
      have hdrop : token.start + token.len - i = token.start + token.len - (i + 1) + 1 := by omega
      rw [replaceFrom, replaceFrom, htake, hdrop, List.drop_succ_cons, List.take_succ_cons]
      cases valueOf token with
      | error e => rfl
      | ok value =>
          change (replaceFrom valueOf (token.start + token.len) tokens (chars.drop _) >>= _) =
            (replaceFrom valueOf (token.start + token.len) tokens (chars.drop _) >>= _).map _
          cases replaceFrom valueOf (token.start + token.len) tokens
            (chars.drop (token.start + token.len - (i + 1))) with
          | error e => rfl
          | ok after => rfl

/-- The walk over pieces none of which is an escape replaces the references. -/
theorem walk_replace {ps : List Piece} (hescape : ∀ c, Piece.escape c ∉ ps) (i : ℕ)
    (result : Text) :
    (walk (fun token (_ : Unit) => (valueOf token, ())) i result ps ()).1 =
      (replaceFrom valueOf i (tokensFrom i ps) (ps.flatMap Piece.text)).map (result ++ ·) := by
  induction ps generalizing i result with
  | nil =>
      rw [walk, tokensFrom, replaceFrom, List.flatMap_nil]
      simp [Except.map]
  | cons p ps ih =>
      have hrest : ∀ c, Piece.escape c ∉ ps := fun c h => hescape c (List.mem_cons_of_mem p h)
      cases p with
      | plain c =>
          have hlater : ∀ token ∈ tokensFrom (i + 1) ps, i + 1 ≤ token.start :=
            fun token h => ((Expressions.tokensFrom_spans (i + 1) ps).1 token h).1
          rw [walk, ih hrest, List.flatMap_cons]
          change _ = (replaceFrom valueOf i (tokensFrom (i + 1) ps)
            (c :: ps.flatMap Piece.text)).map _
          rw [replaceFrom_plain hlater]
          cases replaceFrom valueOf (i + 1) (tokensFrom (i + 1) ps) (ps.flatMap Piece.text) with
          | error e => rfl
          | ok after => simp [Except.map]
      | escape c => exact absurd List.mem_cons_self (hescape c)
      | reference r =>
          have hlen : (r.token i).start + (r.token i).len - i = r.text.length := by
            simp [Reference.token]
          have hstart : (r.token i).start - i = 0 := by simp [Reference.token]
          rw [walk, tokensFrom, replaceFrom, List.flatMap_cons, hlen, hstart,
            Piece.text, List.drop_left, List.take_zero]
          cases valueOf (r.token i) with
          | error e => rfl
          | ok value =>
              dsimp only
              rw [ih hrest]
              change _ = (replaceFrom valueOf (i + r.text.length)
                (tokensFrom (i + r.text.length) ps)
                (ps.flatMap Piece.text) >>= _).map _
              cases replaceFrom valueOf (i + r.text.length) (tokensFrom (i + r.text.length) ps)
                (ps.flatMap Piece.text) with
              | error e => rfl
              | ok after => simp [Except.map, bind, Except.bind, pure, Except.pure]

theorem escape_not_mem {ps : List Piece} {text : Text} (h : Splits unicode ps text)
    (hbackslash : '\\' ∉ text) (c : Char) : Piece.escape c ∉ ps := by
  intro hmem
  rw [← h.text_eq] at hbackslash
  exact hbackslash (List.mem_flatMap.mpr ⟨_, hmem, List.mem_cons_self⟩)

/-- A text that holds no `\` evaluates to itself with each of its references replaced. -/
theorem interpolate_eq_replace {text : Text} {tokens : List Token} (hbackslash : '\\' ∉ text)
    (htokens : Expressions.references unicode text = .ok tokens) (hostEnv : Text → Option Text)
    (configVars : Text → Option (Option Text)) :
    Expressions.interpolate unicode text hostEnv configVars =
      replaceReferences tokens text hostEnv configVars := by
  by_cases hsplits : ∃ ps, Splits unicode ps text
  · obtain ⟨ps, hps⟩ := hsplits
    rw [Expressions.references_splits hps] at htokens
    cases htokens
    rw [Expressions.interpolate, Expressions.scan_splits _ hps,
      walk_replace (escape_not_mem hps hbackslash), hps.text_eq, replaceReferences]
    cases replaceFrom _ 0 (tokensFrom 0 ps) text with
    | error e => rfl
    | ok value => rfl
  · obtain ⟨e, he⟩ := Expressions.references_error hsplits
    rw [he] at htokens
    cases htokens

/-- `$a.b` is read alike by both, and `<a.b` is not. -/
example : referencesBefore "<a.b".toList = [⟨0, 4, '<', ['a', '.', 'b'], none⟩] := by decide +kernel

end Ratect.WrittenFor
