import Ratect.Literals

/-! # Plain text as an expression

`literal_kept` and `literal_as_expression` (`expressions.rs`): what `config convert` writes for a
value that was plain text.  The first escapes everything that an expression would read; the second
escapes backslashes only, so that each `$` and `<` of the text is a reference, unless that is not
well formed.

`Plain` reads the text itself: characters, and references whose sigils are the text's own.  Where
the second has references, its pieces are those of such a reading (`splits_doubled`), so every
backslash outside a braced name stays one (`literal_escaping`). -/

namespace Ratect.Expressions

/-- `escape`: each of the special characters escaped. -/
def escape (input : Text) (special : List Char) : Text :=
  input.flatMap fun c => if c ∈ special then ['\\', c] else [c]

/-- `literal_kept`. -/
def literalKept (literal : Text) : Text := escape literal ['\\', '$', '<']

/-- `literal_as_expression`. -/
def literalAsExpression (unicode : Char → Bool) (literal : Text) : Text :=
  let backslashesKept := escape literal ['\\']
  match checkSyntax unicode backslashesKept with
  | .ok _ => backslashesKept
  | .error _ => literalKept literal

/-! ### Everything kept -/

/-- The piece that a character becomes if it is kept. -/
def keptPiece (c : Char) : Piece := if c ∈ ['\\', '$', '<'] then .escape c else .plain c

theorem splits_literalKept (unicode : Char → Bool) (s : Text) :
    Splits unicode (s.map keptPiece) (literalKept s) := by
  induction s with
  | nil => exact .nil
  | cons c s ih =>
      have hcons : literalKept (c :: s) = (keptPiece c).text ++ literalKept s := by
        unfold literalKept escape keptPiece
        rw [List.flatMap_cons]
        split <;> rfl
      rw [hcons, List.map_cons]
      refine .cons ?_ ih
      unfold keptPiece
      split
      · trivial
      · next h => simpa [Piece.Valid] using h

theorem not_isReference_keptPiece (s : Text) : (s.map keptPiece).any Piece.isReference = false := by
  rw [List.any_eq_false]
  intro p hp
  obtain ⟨c, -, rfl⟩ := List.mem_map.mp hp
  unfold keptPiece
  split <;> exact Bool.false_ne_true

theorem isLiteral_literalKept (unicode : Char → Bool) (s : Text) :
    IsLiteral unicode (literalKept s) := by
  have hsplits := splits_literalKept unicode s
  refine ⟨checkSyntax_splits hsplits, ?_⟩
  rw [containsExpression_splits hsplits]
  exact not_isReference_keptPiece s

theorem unescape_escape {special : List Char} (h : '\\' ∈ special) (s : Text) :
    unescape (escape s special) = s := by
  induction s with
  | nil => rfl
  | cons c s ih =>
      unfold escape at ih ⊢
      rw [List.flatMap_cons]
      split
      · rw [List.cons_append, List.cons_append, List.nil_append, unescape, ih]
      · next hc =>
          rw [List.cons_append, List.nil_append, unescape_cons, ih]
          rintro rfl
          exact hc h

/-! ### Backslashes kept -/

/-- The text with its backslashes doubled. -/
abbrev doubled (s : Text) : Text := escape s ['\\']

theorem doubled_backslash (s : Text) : doubled ('\\' :: s) = '\\' :: '\\' :: doubled s := rfl

theorem doubled_cons {c : Char} (hc : c ≠ '\\') (s : Text) : doubled (c :: s) = c :: doubled s := by
  unfold doubled escape
  rw [List.flatMap_cons, if_neg (by simpa using hc)]
  rfl

/-- A piece of plain text: a character, or a reference as the text has it. -/
inductive Plain where
  | char (c : Char)
  | bare (sigil : Sigil) (name : Text)
  | braced (sigil : Sigil) (name : Text)
  | withDefault (name default : Text)
deriving DecidableEq, Repr

namespace Plain

/-- How the piece is written in the text. -/
def text : Plain → Text
  | char c => [c]
  | bare sigil name => sigil.char :: name
  | braced sigil name => sigil.char :: '{' :: (name ++ ['}'])
  | withDefault name default => '$' :: '{' :: (name ++ ':' :: '-' :: (default ++ ['}']))

/-- A character of a default: a backslash is escaped. -/
def defaultPart (c : Char) : DefaultPart := if c = '\\' then .escaped c else .plain c

/-- What the piece is in the expression: a backslash is itself, and doubled in a braced name. -/
def piece : Plain → Piece
  | char c => if c = '\\' then .escape c else .plain c
  | bare sigil name => .reference (.bare sigil name)
  | braced sigil name => .reference (.braced sigil (doubled name))
  | withDefault name default => .reference (.withDefault (doubled name) (default.map defaultPart))

/-- No character of the text that would begin a reference is left over. -/
def Valid : Plain → Prop
  | char c => c ≠ '$' ∧ c ≠ '<'
  | _ => True

end Plain

/-- What stands before a character other than a backslash is doubled by itself. -/
theorem doubled_cut {c : Char} (hc : c ≠ '\\') {s a rest : Text} (h : doubled s = a ++ c :: rest) :
    ∃ b t, s = b ++ c :: t ∧ a = doubled b ∧ rest = doubled t := by
  induction s generalizing a with
  | nil => simp [doubled, escape] at h
  | cons x s ih =>
      by_cases hx : x = '\\'
      · subst hx
        rw [doubled_backslash] at h
        match a with
        | [] =>
            rw [List.nil_append, List.cons.injEq] at h
            exact absurd h.1.symm hc
        | [y] =>
            rw [List.cons_append, List.nil_append, List.cons.injEq, List.cons.injEq] at h
            exact absurd h.2.1.symm hc
        | y :: z :: a =>
            rw [List.cons_append, List.cons_append, List.cons.injEq, List.cons.injEq] at h
            obtain ⟨rfl, rfl, h⟩ := h
            obtain ⟨b, t, rfl, rfl, rfl⟩ := ih h
            exact ⟨'\\' :: b, t, rfl, (doubled_backslash b).symm, rfl⟩
      · rw [doubled_cons hx] at h
        cases a with
        | nil =>
            rw [List.nil_append, List.cons.injEq] at h
            obtain ⟨rfl, rfl⟩ := h
            exact ⟨[], s, rfl, rfl, rfl⟩
        | cons y a =>
            rw [List.cons_append, List.cons.injEq] at h
            obtain ⟨rfl, h⟩ := h
            obtain ⟨b, t, rfl, rfl, rfl⟩ := ih h
            exact ⟨x :: b, t, rfl, (doubled_cons hx b).symm, rfl⟩

theorem doubled_head {c : Char} (hc : c ≠ '\\') {s rest : Text} (h : doubled s = c :: rest) :
    ∃ t, s = c :: t ∧ rest = doubled t := by
  obtain ⟨b, t, rfl, hb, rfl⟩ := doubled_cut (a := []) hc h
  cases b with
  | nil => exact ⟨t, rfl, rfl⟩
  | cons x b =>
      by_cases hx : x = '\\'
      · subst hx
        cases hb
      · rw [doubled_cons hx] at hb
        cases hb

/-- A text without backslashes is its own double. -/
theorem doubled_append {s a rest : Text} (ha : '\\' ∉ a) (h : doubled s = a ++ rest) :
    ∃ t, s = a ++ t ∧ rest = doubled t := by
  induction a generalizing s with
  | nil => exact ⟨s, rfl, h.symm⟩
  | cons c a ih =>
      rw [List.mem_cons, not_or] at ha
      obtain ⟨t, rfl, ht⟩ := doubled_head (Ne.symm ha.1) h
      obtain ⟨u, rfl, hu⟩ := ih ha.2 ht.symm
      exact ⟨u, rfl, hu⟩

/-- The parts of a default whose text is a double. -/
theorem defaultParts_doubled {d : Text} {parts : List DefaultPart} (hparts : ∀ p ∈ parts, p.Valid)
    (h : parts.flatMap DefaultPart.text = doubled d) : parts = d.map Plain.defaultPart := by
  induction parts generalizing d with
  | nil =>
      cases d with
      | nil => rfl
      | cons c d =>
          by_cases hc : c = '\\'
          · subst hc
            cases h
          · rw [doubled_cons hc] at h
            cases h
  | cons p parts ih =>
      rw [List.flatMap_cons] at h
      have hrest : ∀ q ∈ parts, q.Valid := fun q hq => hparts q (List.mem_cons_of_mem _ hq)
      cases p with
      | plain c =>
          have hc : c ≠ '\\' := (hparts _ List.mem_cons_self).2
          obtain ⟨t, rfl, ht⟩ := doubled_head hc h.symm
          rw [ih hrest ht, List.map_cons]
          unfold Plain.defaultPart
          rw [if_neg hc]
      | escaped c =>
          cases d with
          | nil => cases h
          | cons x d =>
              by_cases hx : x = '\\'
              · subst hx
                rw [doubled_backslash] at h
                simp only [DefaultPart.text, List.cons_append, List.nil_append,
                  List.cons.injEq, true_and] at h
                obtain ⟨rfl, h⟩ := h
                rw [ih hrest h, List.map_cons]
                rfl
              · rw [doubled_cons hx] at h
                simp only [DefaultPart.text, List.cons_append, List.nil_append,
                  List.cons.injEq] at h
                exact absurd h.1.symm hx

variable {unicode : Char → Bool}

theorem not_mem_of_nameChars {name : Text}
    (h : ∀ c ∈ name, isNameChar unicode c = true) : '\\' ∉ name := by
  intro hmem
  cases h _ hmem

/-- A split of the doubled text is a reading of the text. -/
theorem splits_doubled {ps : List Piece} {s : Text} (h : Splits unicode ps (doubled s)) :
    ∃ qs : List Plain, s = qs.flatMap Plain.text ∧ ps = qs.map Plain.piece ∧ ∀ q ∈ qs, q.Valid := by
  generalize hinput : doubled s = input at h
  induction h generalizing s with
  | nil =>
      cases s with
      | nil => exact ⟨[], rfl, rfl, fun _ hq => absurd hq List.not_mem_nil⟩
      | cons c s =>
          by_cases hc : c = '\\'
          · subst hc
            cases hinput
          · rw [doubled_cons hc] at hinput
            cases hinput
  | @cons p ps rest hp _ ih =>
      -- The piece is one of the text's own, and what follows it is a double again.
      have hpiece : ∃ (q : Plain) (t : Text),
          s = q.text ++ t ∧ p = q.piece ∧ q.Valid ∧ doubled t = rest := by
        cases p with
        | plain c =>
            obtain ⟨t, rfl, ht⟩ := doubled_head hp.1 hinput
            exact ⟨.char c, t, rfl, (if_neg hp.1).symm, hp.2, ht.symm⟩
        | escape c =>
            cases s with
            | nil => cases hinput
            | cons x s =>
                by_cases hx : x = '\\'
                · subst hx
                  rw [doubled_backslash] at hinput
                  simp only [Piece.text, List.cons_append, List.nil_append,
                    List.cons.injEq, true_and] at hinput
                  obtain ⟨rfl, hrest⟩ := hinput
                  exact ⟨.char '\\', s, rfl, rfl, ⟨by decide, by decide⟩, hrest⟩
                · rw [doubled_cons hx] at hinput
                  simp only [Piece.text, List.cons_append, List.nil_append,
                    List.cons.injEq] at hinput
                  exact absurd hinput.1 hx
        | reference r =>
            cases r with
            | bare sigil name =>
                have hname : '\\' ∉ sigil.char :: name := by
                  rw [List.mem_cons, not_or]
                  exact ⟨Ne.symm (sigil_char_ne sigil), not_mem_of_nameChars hp.2.1⟩
                obtain ⟨t, rfl, ht⟩ := doubled_append hname hinput
                exact ⟨.bare sigil name, t, rfl, rfl, trivial, ht.symm⟩
            | braced sigil name =>
                have htext : doubled s = [sigil.char, '{'] ++ (name ++ '}' :: rest) := by
                  rw [hinput]
                  simp [Piece.text, Reference.text, Reference.body, Reference.sigil]
                obtain ⟨t, rfl, ht⟩ := doubled_append (by cases sigil <;> decide) htext
                obtain ⟨n, u, rfl, rfl, rfl⟩ := doubled_cut (by decide) ht.symm
                refine ⟨.braced sigil n, u, ?_, rfl, trivial, rfl⟩
                simp [Plain.text]
            | withDefault name parts =>
                have htext : doubled s =
                    ['$', '{'] ++ (name ++ ':' :: '-' ::
                      (parts.flatMap DefaultPart.text ++ '}' :: rest)) := by
                  rw [hinput]
                  simp [Piece.text, Reference.text, Reference.body, Reference.sigil, Sigil.char]
                obtain ⟨t, rfl, ht⟩ := doubled_append (by decide) htext
                obtain ⟨n, u, rfl, rfl, hu⟩ := doubled_cut (by decide) ht.symm
                obtain ⟨v, rfl, hv⟩ := doubled_head (by decide) hu.symm
                obtain ⟨d, w, rfl, hd, rfl⟩ := doubled_cut (by decide) hv.symm
                refine ⟨.withDefault n d, w, ?_, ?_, trivial, rfl⟩
                · simp [Plain.text]
                · unfold Plain.piece
                  rw [defaultParts_doubled hp.2.2 hd]
      obtain ⟨q, t, rfl, rfl, hvalid, ht⟩ := hpiece
      obtain ⟨qs, rfl, rfl, hqs⟩ := ih ht
      refine ⟨q :: qs, rfl, rfl, ?_⟩
      intro q' hq'
      rcases List.mem_cons.mp hq' with rfl | hq'
      · exact hvalid
      · exact hqs q' hq'

/-! ### Both -/

/-- The second function gives one of two texts, each well formed. -/
theorem literalAsExpression_cases (unicode : Char → Bool) (s : Text) :
    (literalAsExpression unicode s = doubled s ∧ checkSyntax unicode (doubled s) = .ok ()) ∨
      literalAsExpression unicode s = literalKept s := by
  unfold literalAsExpression doubled
  dsimp only
  cases checkSyntax unicode (escape s ['\\']) with
  | ok u => exact Or.inl ⟨rfl, rfl⟩
  | error e => exact Or.inr rfl

/-- **Escaping a literal.**  Text that is kept evaluates to itself, whatever the variables hold, and
is no expression.  Text taken as an expression is always well formed; if it has no reference it
evaluates to itself; if it has, its pieces are those of a reading of the text in which each
reference begins at a `$` or `<` of the text, none of those is left over, and a backslash outside a
braced name stays a backslash. -/
theorem literal_escaping (unicode : Char → Bool) (s : Text) :
    (∀ hostEnv configVars, interpolate unicode (literalKept s) hostEnv configVars = .ok s) ∧
    containsExpression unicode (literalKept s) = false ∧
    checkSyntax unicode (literalAsExpression unicode s) = .ok () ∧
    (containsExpression unicode (literalAsExpression unicode s) = false →
      ∀ hostEnv configVars,
        interpolate unicode (literalAsExpression unicode s) hostEnv configVars = .ok s) ∧
    (containsExpression unicode (literalAsExpression unicode s) = true →
      ∃ qs : List Plain, s = qs.flatMap Plain.text ∧ (∀ q ∈ qs, q.Valid) ∧
        Splits unicode (qs.map Plain.piece) (literalAsExpression unicode s) ∧
        references unicode (literalAsExpression unicode s) =
          .ok (tokensFrom 0 (qs.map Plain.piece)) ∧
        ∀ hostEnv configVars out,
          interpolate unicode (literalAsExpression unicode s) hostEnv configVars = .ok out ↔
          denote hostEnv configVars (qs.map Plain.piece) = some out) := by
  have hkept := isLiteral_literalKept unicode s
  have hkeeps : ∀ hostEnv configVars,
      interpolate unicode (literalKept s) hostEnv configVars = .ok s := by
    intro hostEnv configVars
    rw [interpolate_literal hkept]
    exact congrArg Except.ok (unescape_escape (by decide) s)
  refine ⟨hkeeps, hkept.2, ?_, ?_, ?_⟩
  · rcases literalAsExpression_cases unicode s with ⟨heq, hok⟩ | heq
    · rw [heq, hok]
    · rw [heq, hkept.1]
  · intro hnone hostEnv configVars
    rcases literalAsExpression_cases unicode s with ⟨heq, hok⟩ | heq
    · rw [heq] at hnone ⊢
      rw [interpolate_literal ⟨hok, hnone⟩]
      exact congrArg Except.ok (unescape_escape (by decide) s)
    · rw [heq]
      exact hkeeps hostEnv configVars
  · intro hsome
    rcases literalAsExpression_cases unicode s with ⟨heq, hok⟩ | heq
    · rw [heq]
      obtain ⟨ps, hps⟩ := (checkSyntax_ok_iff (doubled s)).mp hok
      obtain ⟨qs, hs, rfl, hvalid⟩ := splits_doubled hps
      refine ⟨qs, hs, hvalid, hps, references_splits hps, ?_⟩
      intro hostEnv configVars out
      rw [interpolate_ok_iff]
      constructor
      · rintro ⟨ps', hps', hdenote⟩
        rw [hps.unique unicode hps']
        exact hdenote
      · exact fun hdenote => ⟨_, hps, hdenote⟩
    · rw [heq, hkept.2] at hsome
      cases hsome

end Ratect.Expressions
