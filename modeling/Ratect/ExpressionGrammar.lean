import Ratect.Expressions

/-! # The expression grammar

The documented grammar, stated without the reader: an input is a sequence of `Piece`s, each a
plain character, an escape pair or a `Reference`, and `Splits ps input` says that `input` is
the concatenation of their texts with every unbraced name as long as it can be.

* `Splits.unique`: an input has at most one split.
* `parseToken_text` and `exists_reference_of_parseToken`: `parse_token` reads exactly the
  references of the grammar.
* `scanFrom_splits` and `scanFrom_error`: the walk follows the split where there is one
  (`walk`), and fails where there is none, whatever the caller does with the references.

What each reader returns on a split is then read off `walk` (`expression_grammar`). -/

namespace Ratect.Expressions

/-! ### The grammar -/

/-- The two sigils. -/
inductive Sigil where
  | env
  | config
deriving DecidableEq, Repr

/-- The character a sigil is written as. -/
def Sigil.char : Sigil → Char
  | env => '$'
  | config => '<'

/-- One character of a default, as written: itself, or escaped. -/
inductive DefaultPart where
  | plain (c : Char)
  | escaped (c : Char)
deriving DecidableEq, Repr

namespace DefaultPart

/-- How the part is written. -/
def text : DefaultPart → Text
  | plain c => [c]
  | escaped c => ['\\', c]

/-- The character the part stands for. -/
def value : DefaultPart → Char
  | plain c => c
  | escaped c => c

/-- Unescaped, a default holds neither a closing brace nor a backslash. -/
def Valid : DefaultPart → Prop
  | plain c => c ≠ '}' ∧ c ≠ '\\'
  | escaped _ => True

end DefaultPart

/-- A reference: unbraced, braced, or braced with a default. -/
inductive Reference where
  | bare (sigil : Sigil) (name : Text)
  | braced (sigil : Sigil) (name : Text)
  | withDefault (name : Text) (default : List DefaultPart)
deriving DecidableEq, Repr

/-- A character that a braced name cannot hold. -/
def EndsName (sigil : Sigil) (c : Char) : Prop := c = '}' ∨ c = ':' ∧ sigil = .env

namespace Reference

/-- What follows the sigil, as written. -/
def body : Reference → Text
  | bare _ name => name
  | braced _ name => '{' :: (name ++ ['}'])
  | withDefault name default =>
      '{' :: (name ++ ':' :: '-' :: (default.flatMap DefaultPart.text ++ ['}']))

def sigil : Reference → Sigil
  | bare s _ => s
  | braced s _ => s
  | withDefault _ _ => .env

def name : Reference → Text
  | bare _ n => n
  | braced _ n => n
  | withDefault n _ => n

/-- The default with its escapes applied. -/
def default : Reference → Option Text
  | withDefault _ d => some (d.map DefaultPart.value)
  | _ => none

/-- The whole reference, as written. -/
def text (r : Reference) : Text := r.sigil.char :: r.body

/-- The token `parse_token` makes of the reference at position `start`. -/
def token (r : Reference) (start : ℕ) : Token :=
  ⟨start, r.text.length, r.sigil.char, r.name, r.default⟩

/-- Well-formedness, given what follows the reference. -/
def Valid (unicode : Char → Bool) (rest : Text) : Reference → Prop
  | bare _ name => name ≠ [] ∧ (∀ c ∈ name, isNameChar unicode c = true) ∧
      ∀ c ∈ rest.head?, isNameChar unicode c = false
  | braced s name => name ≠ [] ∧ ∀ c ∈ name, ¬ EndsName s c
  | withDefault name d => name ≠ [] ∧ (∀ c ∈ name, ¬ EndsName .env c) ∧ ∀ p ∈ d, p.Valid

/-- The value of a reference, if it has one. -/
def value (hostEnv : Text → Option Text) (configVars : Text → Option (Option Text))
    (r : Reference) : Option Text :=
  match r.sigil with
  | .env => (hostEnv r.name).or r.default
  | .config => (configVars r.name).join

end Reference

/-- A piece of an input. -/
inductive Piece where
  | plain (c : Char)
  | escape (c : Char)
  | reference (r : Reference)
deriving DecidableEq, Repr

namespace Piece

/-- How the piece is written. -/
def text : Piece → Text
  | plain c => [c]
  | escape c => ['\\', c]
  | reference r => r.text

/-- Well-formedness, given what follows the piece. -/
def Valid (unicode : Char → Bool) (rest : Text) : Piece → Prop
  | plain c => c ≠ '\\' ∧ c ≠ '$' ∧ c ≠ '<'
  | escape _ => True
  | reference r => r.Valid unicode rest

/-- Whether the piece is a reference. -/
def isReference : Piece → Bool
  | reference _ => true
  | _ => false

/-- What the piece evaluates to, if anything. -/
def value (hostEnv : Text → Option Text) (configVars : Text → Option (Option Text)) :
    Piece → Option Text
  | plain c => some [c]
  | escape c => some [c]
  | reference r => r.value hostEnv configVars

end Piece

/-- The concatenation of the pieces' values, if every one has a value. -/
def denote (hostEnv : Text → Option Text) (configVars : Text → Option (Option Text)) :
    List Piece → Option Text
  | [] => some []
  | p :: ps => do
      let v ← p.value hostEnv configVars
      let vs ← denote hostEnv configVars ps
      return v ++ vs

/-- The tokens of the references, the first piece being at position `i`. -/
def tokensFrom (i : ℕ) : List Piece → List Token
  | [] => []
  | .reference r :: ps => r.token i :: tokensFrom (i + r.text.length) ps
  | p :: ps => tokensFrom (i + p.text.length) ps

/-- `Splits ps input`: the pieces `ps` are a reading of `input`. -/
inductive Splits (unicode : Char → Bool) : List Piece → Text → Prop
  | nil : Splits unicode [] []
  | cons {p : Piece} {ps : List Piece} {rest : Text} :
      p.Valid unicode rest → Splits unicode ps rest → Splits unicode (p :: ps) (p.text ++ rest)

section grammar

variable (unicode : Char → Bool)

/-! ### Names and defaults -/

theorem sigil_char_cases {c : Char} (h : c = '$' ∨ c = '<') : ∃ s : Sigil, c = s.char := by
  rcases h with rfl | rfl
  · exact ⟨.env, rfl⟩
  · exact ⟨.config, rfl⟩

theorem brace_not_nameChar : isNameChar unicode '{' = false := rfl

theorem not_endsName_iff (s : Sigil) (c : Char) :
    ¬ EndsName s c ↔ c ≠ '}' ∧ ¬ (c = ':' ∧ s.char = '$') := by
  cases s <;> simp [EndsName, Sigil.char]

/-- The unbraced-name loop stops after the longest run of name characters. -/
theorem nameEnd_eq (i : ℕ) (rest : Text) :
    nameEnd unicode i rest = i + (rest.takeWhile (isNameChar unicode)).length := by
  induction rest generalizing i with
  | nil => simp [nameEnd]
  | cons c rest ih =>
      unfold nameEnd
      by_cases h : isNameChar unicode c = true
      · simp only [h, Bool.not_true, Bool.false_eq_true, if_false, List.takeWhile_cons, if_true,
          List.length_cons, ih]
        omega
      · simp [h]

/-- A run of name characters that what follows does not continue is read whole. -/
theorem takeWhile_name {name rest : Text} (hn : ∀ c ∈ name, isNameChar unicode c = true)
    (hr : ∀ c ∈ rest.head?, isNameChar unicode c = false) :
    (name ++ rest).takeWhile (isNameChar unicode) = name := by
  rw [List.takeWhile_append_of_pos hn]
  cases rest with
  | nil => simp
  | cons c rest => simp [hr c (by simp)]

/-- The braced-name loop reads up to the first character that ends a name. -/
theorem readName_append (s : Sigil) (i : ℕ) (acc name rest : Text)
    (hn : ∀ c ∈ name, ¬ EndsName s c) :
    readName s.char i acc (name ++ rest) =
      readName s.char (i + name.length) (acc ++ name) rest := by
  induction name generalizing i acc with
  | nil => simp
  | cons c name ih =>
      obtain ⟨h1, h2⟩ := (not_endsName_iff s c).mp (hn c (by simp))
      rw [List.cons_append, readName, if_neg h1, if_neg h2,
        ih _ _ (fun d hd => hn d (by simp [hd]))]
      congr 1
      · simp only [List.length_cons]; omega
      · simp

/-- Every braced-name loop reads a name and stops where it has to. -/
theorem exists_readName (s : Sigil) (i : ℕ) (acc rest : Text) :
    ∃ name tail, rest = name ++ tail ∧ (∀ c ∈ name, ¬ EndsName s c) ∧
      (readName s.char i acc rest).name = acc ++ name ∧
      (readName s.char i acc rest).i = i + name.length ∧
      (readName s.char i acc rest).rest = tail ∧
      ((readName s.char i acc rest).closed = true → ∃ after, tail = '}' :: after) ∧
      ((readName s.char i acc rest).hasDefault = true →
        s = .env ∧ ∃ after, tail = ':' :: after) := by
  induction rest generalizing i acc with
  | nil => exact ⟨[], [], by simp [readName]⟩
  | cons c rest ih =>
      by_cases h1 : c = '}'
      · exact ⟨[], c :: rest, by simp [readName, h1]⟩
      by_cases h2 : c = ':' ∧ s.char = '$'
      · refine ⟨[], c :: rest, ?_⟩
        have hs : s = .env := by
          cases s
          · rfl
          · exact absurd h2.2 (by decide)
        simp [readName, h2.1, hs, Sigil.char]
      · obtain ⟨name, tail, e, hn, hname, hi, hrest, hc, hd⟩ := ih (i + 1) (acc ++ [c])
        have hstep : readName s.char i acc (c :: rest) =
            readName s.char (i + 1) (acc ++ [c]) rest := by
          rw [readName, if_neg h1, if_neg h2]
        refine ⟨c :: name, tail, by rw [e]; rfl, ?_, ?_, ?_, ?_, ?_, ?_⟩
        · intro d hd'
          rcases List.mem_cons.mp hd' with rfl | hd'
          · exact (not_endsName_iff s d).mpr ⟨h1, h2⟩
          · exact hn d hd'
        · rw [hstep, hname]; simp
        · rw [hstep, hi, List.length_cons]; omega
        · rw [hstep, hrest]
        · rw [hstep]; exact hc
        · rw [hstep]; exact hd

/-- The default loop reads valid parts and stops at the closing brace after them. -/
theorem readDefault_text (sigil : Char) (i : ℕ) (acc rest : Text) (d : List DefaultPart)
    (hd : ∀ p ∈ d, p.Valid) :
    readDefault sigil i acc (d.flatMap DefaultPart.text ++ '}' :: rest) =
      .ok (acc ++ d.map DefaultPart.value, i + (d.flatMap DefaultPart.text).length, true) := by
  induction d generalizing i acc with
  | nil => simp [readDefault]
  | cons p d ih =>
      have ih' := fun i acc => ih i acc fun q hq => hd q (by simp [hq])
      cases p with
      | plain c =>
          obtain ⟨h1, h2⟩ : c ≠ '}' ∧ c ≠ '\\' := hd (.plain c) (by simp)
          simp only [List.flatMap_cons, DefaultPart.text, List.cons_append, List.nil_append,
            List.map_cons, DefaultPart.value, List.length_cons]
          rw [readDefault, ih']
          · simp only [List.append_assoc, List.cons_append, List.nil_append, Except.ok.injEq,
              Prod.mk.injEq, true_and, and_true]
            omega
          · exact h1
          · intro e _; exact h2 e
          · intro _ _ e _; exact h2 e
      | escaped c =>
          simp only [List.flatMap_cons, DefaultPart.text, List.cons_append, List.nil_append,
            List.map_cons, DefaultPart.value, List.length_cons]
          rw [readDefault, ih']
          simp only [List.append_assoc, List.cons_append, List.nil_append, Except.ok.injEq,
            Prod.mk.injEq, true_and, and_true]
          omega

/-- A default that was closed was written as valid parts and a closing brace. -/
theorem exists_parts_of_readDefault {sigil : Char} {i j : ℕ} {acc value rest : Text}
    (h : readDefault sigil i acc rest = .ok (value, j, true)) :
    ∃ (d : List DefaultPart) (after : Text), (∀ p ∈ d, p.Valid) ∧
      rest = d.flatMap DefaultPart.text ++ '}' :: after ∧
      value = acc ++ d.map DefaultPart.value ∧
      j = i + (d.flatMap DefaultPart.text).length := by
  induction i, acc, rest using readDefault.induct with
  | case1 i acc => simp [readDefault] at h
  | case2 i acc rest =>
      simp only [readDefault, Except.ok.injEq, Prod.mk.injEq, and_true] at h
      exact ⟨[], rest, by simp, by simp, by simp [h.1], by simp [h.2]⟩
  | case3 i acc => simp [readDefault] at h
  | case4 i acc escaped rest ih =>
      rw [readDefault] at h
      obtain ⟨d, after, hd, hr, hv, hj⟩ := ih h
      refine ⟨.escaped escaped :: d, after, ?_, ?_, ?_, ?_⟩
      · intro p hp
        rcases List.mem_cons.mp hp with rfl | hp
        · trivial
        · exact hd p hp
      · simp [DefaultPart.text, hr]
      · simp [DefaultPart.value, hv]
      · simp only [hj, List.flatMap_cons, DefaultPart.text, List.length_append, List.length_cons,
          List.length_nil]
        omega
  | case5 i acc c rest h1 h2 h3 ih =>
      rw [readDefault] at h
      · obtain ⟨d, after, hd, hr, hv, hj⟩ := ih h
        refine ⟨.plain c :: d, after, ?_, ?_, ?_, ?_⟩
        · intro p hp
          rcases List.mem_cons.mp hp with rfl | hp
          · refine ⟨h1, fun e => ?_⟩
            cases rest with
            | nil => exact h2 e rfl
            | cons c' rest' => exact h3 c' rest' e rfl
          · exact hd p hp
        · simp [DefaultPart.text, hr]
        · simp [DefaultPart.value, hv]
        · simp only [hj, List.flatMap_cons, DefaultPart.text, List.length_append, List.length_cons,
            List.length_nil]
          omega
      all_goals assumption

/-! ### One reference -/

/-- `parse_token` reads every valid reference, and reads it whole. -/
theorem parseToken_text (start : ℕ) (r : Reference) (rest : Text) (hr : r.Valid unicode rest) :
    parseToken unicode start r.sigil.char (r.body ++ rest) = .ok (r.token start) := by
  cases r with
  | bare s name =>
      obtain ⟨hne, hn, hrest⟩ := hr
      obtain ⟨c, cs, rfl⟩ := List.exists_cons_of_ne_nil hne
      have hc : c ≠ '{' := by
        rintro rfl
        exact absurd (hn '{' (by simp)) (by rw [brace_not_nameChar]; decide)
      have hrun := takeWhile_name unicode hn hrest
      have hstop := nameEnd_eq unicode (start + 1) ((c :: cs) ++ rest)
      rw [hrun] at hstop
      rw [List.cons_append] at hstop
      change parseToken unicode start s.char (c :: (cs ++ rest)) = _
      simp only [parseToken, ne_eq, hc, not_false_eq_true, if_true, hstop, List.length_cons]
      rw [if_neg (by omega), show start + 1 + (cs.length + 1) - (start + 1) = (c :: cs).length by
        simp, ← List.cons_append, List.take_left]
      simp only [Reference.token, Reference.text, Reference.body, Reference.sigil, Reference.name,
        Reference.default, List.length_cons, Except.ok.injEq, Token.mk.injEq, true_and, and_true]
      omega
  | braced s name =>
      obtain ⟨hne, hn⟩ := hr
      have hread := readName_append s (start + 2) [] name ('}' :: rest) hn
      simp only [Reference.sigil, Reference.body, parseToken, List.cons_append, List.append_assoc,
        List.nil_append, ne_eq, not_true_eq_false, if_false, hread, readName, if_true,
        Bool.false_eq_true, finishBraced, Bool.not_true, List.isEmpty_iff, hne]
      simp only [Reference.token, Reference.text, Reference.body, Reference.sigil, Reference.name,
        Reference.default, List.length_cons, List.length_append, List.length_nil, Except.ok.injEq,
        Token.mk.injEq, true_and, and_true]
      omega
  | withDefault name d =>
      obtain ⟨hne, hn, hd⟩ := hr
      have hread := readName_append .env (start + 2) [] name
        (':' :: '-' :: (d.flatMap DefaultPart.text ++ '}' :: rest)) hn
      have hdef := readDefault_text Sigil.env.char (start + 2 + name.length + 2) [] rest d hd
      rw [readName, if_neg (by decide), if_pos ⟨rfl, rfl⟩] at hread
      simp only [Reference.sigil, Reference.body, parseToken, List.cons_append, List.append_assoc,
        List.nil_append, ne_eq, not_true_eq_false, if_false, hread, if_true, hdef, finishBraced,
        Bool.not_true, Bool.false_eq_true, List.isEmpty_iff, hne]
      simp only [Reference.token, Reference.text, Reference.body, Reference.sigil, Reference.name,
        Reference.default, List.length_cons, List.length_append, List.length_nil,
        Except.ok.injEq, Token.mk.injEq, true_and, and_true]
      omega

theorem finishBraced_ok {start i : ℕ} {sigil : Char} {chars name : Text} {closed : Bool}
    {default : Option Text} {token : Token}
    (h : finishBraced start sigil chars name i closed default = .ok token) :
    closed = true ∧ name ≠ [] ∧ token = ⟨start, i + 1 - start, sigil, name, default⟩ := by
  unfold finishBraced at h
  split_ifs at h with h1 h2
  refine ⟨by simpa using h1, by simpa using h2, ?_⟩
  exact (Except.ok.inj h).symm

/-- What `parse_token` accepts is a valid reference followed by the rest of the input. -/
theorem exists_reference_of_parseToken {start : ℕ} {s : Sigil} {input : Text} {token : Token}
    (h : parseToken unicode start s.char input = .ok token) :
    ∃ (r : Reference) (rest : Text), r.sigil = s ∧ r.Valid unicode rest ∧ input = r.body ++ rest ∧
      token = r.token start := by
  cases input with
  | nil => simp [parseToken] at h
  | cons after braced =>
      by_cases hb : after = '{'
      · subst hb
        obtain ⟨name, tail, e, hn, hname, hi, hrest, hc, hd⟩ :=
          exists_readName s (start + 2) [] braced
        simp only [parseToken, ne_eq, not_true_eq_false, if_false] at h
        rw [hname, hi, hrest] at h
        split_ifs at h with hdef
        · obtain ⟨rfl, after, rfl⟩ := hd hdef
          split at h
          · rename_i heq
            obtain ⟨_, rfl⟩ := List.cons.inj heq
            split at h
            · cases h
            · rename_i default j closed hread
              obtain ⟨rfl, hne, rfl⟩ := finishBraced_ok h
              obtain ⟨d, rest, hv, rfl, rfl, rfl⟩ := exists_parts_of_readDefault hread
              refine ⟨.withDefault name d, rest, rfl, ⟨by simpa using hne, hn, hv⟩, ?_, ?_⟩
              · simp [Reference.body, e]
              · simp only [Reference.token, Reference.text, Reference.body, Reference.sigil,
                  Reference.name, Reference.default, List.nil_append, List.length_cons,
                  List.length_append, List.length_nil, Token.mk.injEq, true_and, and_true]
                omega
          · cases h
        · obtain ⟨hclosed, hne, rfl⟩ := finishBraced_ok h
          obtain ⟨rest, rfl⟩ := hc hclosed
          refine ⟨.braced s name, rest, rfl, ⟨by simpa using hne, hn⟩, by
            simp [Reference.body, e], ?_⟩
          simp only [Reference.token, Reference.text, Reference.body, Reference.sigil,
            Reference.name, Reference.default, List.nil_append, List.length_cons,
            List.length_append, List.length_nil, Token.mk.injEq, true_and, and_true]
          omega
      · have hsplit := List.takeWhile_append_dropWhile (p := isNameChar unicode)
          (l := after :: braced)
        set name := (after :: braced).takeWhile (isNameChar unicode) with hname
        set rest := (after :: braced).dropWhile (isNameChar unicode) with hrest
        have hstop := nameEnd_eq unicode (start + 1) (after :: braced)
        rw [← hname] at hstop
        simp only [parseToken, ne_eq, hb, not_false_eq_true, if_true, hstop] at h
        split_ifs at h with h0
        have htake : (after :: braced).take (start + 1 + name.length - (start + 1)) = name := by
          rw [Nat.add_sub_cancel_left, ← hsplit, List.take_left]
        rw [htake] at h
        refine ⟨.bare s name, rest, rfl, ⟨?_, ?_, ?_⟩, hsplit.symm, ?_⟩
        · rintro e
          rw [e] at h0
          simp at h0
        · intro c hc
          exact List.mem_takeWhile_imp hc
        · intro c hc
          rw [hrest] at hc
          have := List.head?_dropWhile_not (isNameChar unicode) (after :: braced)
          rw [Option.mem_def.mp hc] at this
          simpa using this
        · rw [← Except.ok.inj h]
          simp only [Reference.token, Reference.text, Reference.body, Reference.sigil,
            Reference.name, Reference.default, List.length_cons, Token.mk.injEq, true_and, and_true]
          omega

/-! ### Uniqueness of the split -/

/-- The parts of a default are determined by their text up to the closing brace. -/
theorem defaultParts_unique {d d' : List DefaultPart} {rest rest' : Text}
    (hd : ∀ p ∈ d, p.Valid) (hd' : ∀ p ∈ d', p.Valid)
    (h : d.flatMap DefaultPart.text ++ '}' :: rest = d'.flatMap DefaultPart.text ++ '}' :: rest') :
    d = d' ∧ rest = rest' := by
  induction d generalizing d' with
  | nil =>
      cases d' with
      | nil => simpa using h
      | cons p d' =>
          cases p with
          | plain c =>
              obtain ⟨hc, _⟩ : c ≠ '}' ∧ c ≠ '\\' := hd' (.plain c) (by simp)
              simp only [List.flatMap_nil, List.nil_append, List.flatMap_cons, DefaultPart.text,
                List.cons_append, List.cons.injEq] at h
              exact absurd h.1.symm hc
          | escaped c =>
              simp [DefaultPart.text] at h
  | cons p d ih =>
      have ih' := fun {e : List DefaultPart} => @ih e (fun q hq => hd q (by simp [hq]))
      cases d' with
      | nil =>
          cases p with
          | plain c =>
              obtain ⟨hc, _⟩ : c ≠ '}' ∧ c ≠ '\\' := hd (.plain c) (by simp)
              simp only [List.flatMap_nil, List.nil_append, List.flatMap_cons, DefaultPart.text,
                List.cons_append, List.cons.injEq] at h
              exact absurd h.1 hc
          | escaped c => simp [DefaultPart.text] at h
      | cons p' d' =>
          have hd'' : ∀ q ∈ d', q.Valid := fun q hq => hd' q (by simp [hq])
          cases p with
          | plain c =>
              obtain ⟨_, hc⟩ : c ≠ '}' ∧ c ≠ '\\' := hd (.plain c) (by simp)
              cases p' with
              | plain c' =>
                  simp only [List.flatMap_cons, DefaultPart.text, List.cons_append,
                    List.nil_append, List.cons.injEq] at h
                  obtain ⟨rfl, rfl⟩ := ih' hd'' h.2
                  exact ⟨by rw [h.1], rfl⟩
              | escaped c' =>
                  simp only [List.flatMap_cons, DefaultPart.text, List.cons_append,
                    List.nil_append, List.cons.injEq] at h
                  exact absurd h.1 hc
          | escaped c =>
              cases p' with
              | plain c' =>
                  obtain ⟨_, hc⟩ : c' ≠ '}' ∧ c' ≠ '\\' := hd' (.plain c') (by simp)
                  simp only [List.flatMap_cons, DefaultPart.text, List.cons_append,
                    List.nil_append, List.cons.injEq] at h
                  exact absurd h.1.symm hc
              | escaped c' =>
                  simp only [List.flatMap_cons, DefaultPart.text, List.cons_append,
                    List.nil_append, List.cons.injEq, true_and] at h
                  obtain ⟨rfl, rfl⟩ := ih' hd'' h.2
                  exact ⟨by rw [h.1], rfl⟩

theorem bare_ne_brace {name rest : Text} (hne : name ≠ [])
    (hn : ∀ c ∈ name, isNameChar unicode c = true) {after : Text} :
    name ++ rest ≠ '{' :: after := by
  obtain ⟨c, cs, rfl⟩ := List.exists_cons_of_ne_nil hne
  intro h
  obtain ⟨rfl, _⟩ := List.cons.inj h
  have := hn '{' (by simp)
  rw [brace_not_nameChar] at this
  cases this

/-- A valid reference and what follows it are determined by the text they make up. -/
theorem reference_unique {r r' : Reference} {rest rest' : Text} (hr : r.Valid unicode rest)
    (hr' : r'.Valid unicode rest') (h : r.text ++ rest = r'.text ++ rest') :
    r = r' ∧ rest = rest' := by
  obtain ⟨hsigil, hbody⟩ := List.cons.inj h
  have hs : r.sigil = r'.sigil := by
    cases hs : r.sigil <;> cases hs' : r'.sigil <;> rw [hs, hs'] at hsigil <;>
      first | rfl | exact absurd hsigil (by decide)
  -- both readings are what `parse_token` makes of the one text, so their tokens agree
  have htok : r.token 0 = r'.token 0 := by
    have h1 := parseToken_text unicode 0 r rest hr
    have h2 := parseToken_text unicode 0 r' rest' hr'
    rw [← hs, ← show r.body ++ rest = r'.body ++ rest' from hbody, h1] at h2
    exact Except.ok.inj h2
  simp only [Reference.token, Token.mk.injEq, true_and] at htok
  obtain ⟨hlen, _, hname, hdefault⟩ := htok
  obtain ⟨htext, hrest⟩ := List.append_inj h hlen
  refine ⟨?_, hrest⟩
  obtain ⟨_, hbody'⟩ := List.cons.inj htext
  cases r with
  | bare s name =>
      cases r' with
      | bare s' name' =>
          simp only [Reference.sigil] at hs
          simp only [Reference.name] at hname
          rw [hs, hname]
      | braced s' name' =>
          exact absurd (show name ++ [] = _ by rw [List.append_nil]; exact hbody')
            (bare_ne_brace unicode hr.1 hr.2.1)
      | withDefault name' d' => simp [Reference.default] at hdefault
  | braced s name =>
      cases r' with
      | bare s' name' =>
          exact absurd (show name' ++ [] = _ by rw [List.append_nil]; exact hbody'.symm)
            (bare_ne_brace unicode hr'.1 hr'.2.1)
      | braced s' name' =>
          simp only [Reference.sigil] at hs
          simp only [Reference.name] at hname
          rw [hs, hname]
      | withDefault name' d' => simp [Reference.default] at hdefault
  | withDefault name d =>
      cases r' with
      | bare s' name' => simp [Reference.default] at hdefault
      | braced s' name' => simp [Reference.default] at hdefault
      | withDefault name' d' =>
          simp only [Reference.name] at hname
          subst hname
          simp only [Reference.body, List.cons.injEq, true_and,
            List.append_cancel_left_eq] at hbody'
          obtain ⟨rfl, _⟩ := defaultParts_unique hr.2.2 hr'.2.2 hbody'
          rfl

theorem sigil_char_ne (s : Sigil) : s.char ≠ '\\' := by cases s <;> decide

theorem plain_ne_sigil {c : Char} (h : c ≠ '\\' ∧ c ≠ '$' ∧ c ≠ '<') (s : Sigil) : c ≠ s.char := by
  cases s
  · exact h.2.1
  · exact h.2.2

/-- A valid piece and what follows it are determined by the text they make up. -/
theorem piece_unique {p p' : Piece} {rest rest' : Text} (hp : p.Valid unicode rest)
    (hp' : p'.Valid unicode rest') (h : p.text ++ rest = p'.text ++ rest') :
    p = p' ∧ rest = rest' := by
  cases p with
  | plain c =>
      cases p' with
      | plain c' =>
          obtain ⟨rfl, rfl⟩ := List.cons.inj h
          exact ⟨rfl, rfl⟩
      | escape c' => exact absurd (List.cons.inj h).1 hp.1
      | reference r' => exact absurd (List.cons.inj h).1 (plain_ne_sigil hp _)
  | escape c =>
      cases p' with
      | plain c' => exact absurd (List.cons.inj h).1.symm hp'.1
      | escape c' =>
          obtain ⟨_, h'⟩ := List.cons.inj h
          obtain ⟨rfl, rfl⟩ := List.cons.inj h'
          exact ⟨rfl, rfl⟩
      | reference r' => exact absurd (List.cons.inj h).1.symm (sigil_char_ne _)
  | reference r =>
      cases p' with
      | plain c' => exact absurd (List.cons.inj h).1.symm (plain_ne_sigil hp' _)
      | escape c' => exact absurd (List.cons.inj h).1 (sigil_char_ne _)
      | reference r' =>
          obtain ⟨rfl, rfl⟩ := reference_unique unicode hp hp' h
          exact ⟨rfl, rfl⟩

theorem piece_text_ne_nil (p : Piece) : p.text ≠ [] := by
  cases p <;> simp [Piece.text, Reference.text]

/-- An input has at most one split. -/
theorem Splits.unique {ps qs : List Piece} {input : Text} (hp : Splits unicode ps input)
    (hq : Splits unicode qs input) : ps = qs := by
  induction hp generalizing qs with
  | nil =>
      generalize he : ([] : Text) = input at hq
      cases hq with
      | nil => rfl
      | @cons p _ _ _ _ => exact absurd (List.append_eq_nil_iff.mp he.symm).1 (piece_text_ne_nil p)
  | @cons p ps rest hv _ ih =>
      generalize he : p.text ++ rest = input at hq
      cases hq with
      | nil => exact absurd (List.append_eq_nil_iff.mp he).1 (piece_text_ne_nil p)
      | cons hv' hs' =>
          obtain ⟨rfl, rfl⟩ := piece_unique unicode hv hv' he
          rw [ih hs']

/-! ### The walk over a split -/

variable {σ : Type}

/-- What the walk does on the pieces of a split, the first of them at position `i`. -/
def walk (onToken : Token → σ → Except Error Text × σ) (i : ℕ) (result : Text) :
    List Piece → σ → Except Error Text × σ
  | [], s => (.ok result, s)
  | .plain c :: ps, s => walk onToken (i + 1) (result ++ [c]) ps s
  | .escape c :: ps, s => walk onToken (i + 2) (result ++ [c]) ps s
  | .reference r :: ps, s =>
      match onToken (r.token i) s with
      | (.error e, s') => (.error e, s')
      | (.ok text, s') => walk onToken (i + r.text.length) (result ++ text) ps s'

theorem scanFrom_plain (onToken : Token → σ → Except Error Text × σ) (i : ℕ) (result rest : Text)
    (s : σ) {c : Char} (hc : c ≠ '\\' ∧ c ≠ '$' ∧ c ≠ '<') :
    scanFrom unicode onToken i result (c :: rest) s =
      scanFrom unicode onToken (i + 1) (result ++ [c]) rest s := by
  rw [scanFrom]
  · rw [if_neg (by simp [hc.2.1, hc.2.2])]
  · intro e _
    exact hc.1 e
  · intro _ _ e _
    exact hc.1 e

theorem scanFrom_sigil (onToken : Token → σ → Except Error Text × σ) (i : ℕ) (result rest : Text)
    (s : σ) (sigil : Sigil) :
    scanFrom unicode onToken i result (sigil.char :: rest) s =
      match parseToken unicode i sigil.char rest with
      | .error e => (.error e, s)
      | .ok token =>
          match onToken token s with
          | (.error e, s') => (.error e, s')
          | (.ok text, s') => scanFrom unicode onToken (i + token.len) (result ++ text)
              ((sigil.char :: rest).drop token.len) s' := by
  rw [scanFrom]
  · rw [if_pos (by cases sigil <;> simp [Sigil.char])]
    split
    · rename_i h
      rw [h]
    · rename_i token h
      cases hread : onToken token s with
      | mk answer s' =>
          cases answer with
          | error e => simp only [h, hread]
          | ok text => simp only [h, hread]
  · intro e _
    exact sigil_char_ne sigil e
  · intro _ _ e _
    exact sigil_char_ne sigil e

/-- On an input with a split the walk follows it. -/
theorem scanFrom_splits (onToken : Token → σ → Except Error Text × σ) {ps : List Piece}
    {input : Text} (h : Splits unicode ps input) (i : ℕ) (result : Text) (s : σ) :
    scanFrom unicode onToken i result input s = walk onToken i result ps s := by
  induction h generalizing i result s with
  | nil => rw [scanFrom, walk]
  | @cons p ps rest hv _ ih =>
      cases p with
      | plain c =>
          rw [walk, ← ih]
          exact scanFrom_plain unicode onToken i result rest s hv
      | escape c =>
          rw [walk, ← ih]
          exact scanFrom.eq_3 ..
      | reference r =>
          have hdrop : (r.text ++ rest).drop r.text.length = rest := List.drop_left
          have hstep := scanFrom_sigil unicode onToken i result (r.body ++ rest) s r.sigil
          rw [parseToken_text unicode i r rest hv] at hstep
          dsimp only [Reference.token] at hstep
          rw [← List.cons_append, ← Reference.text, hdrop] at hstep
          refine hstep.trans ?_
          rw [walk, Reference.token]
          split
          · rfl
          · exact ih _ _ _

/-- An input without a split makes the walk fail, whatever the caller does with the references
before the mistake. -/
theorem scanFrom_error (onToken : Token → σ → Except Error Text × σ) (input : Text)
    (h : ¬ ∃ ps, Splits unicode ps input) (i : ℕ) (result : Text) (s : σ) :
    ∃ e, (scanFrom unicode onToken i result input s).1 = .error e := by
  induction hn : input.length using Nat.strong_induction_on generalizing input i result s with
  | _ n ih =>
      subst hn
      -- a valid first piece hands the mistake on to what follows it
      have hrest : ∀ (p : Piece) (rest : Text), input = p.text ++ rest → p.Valid unicode rest →
          ¬ ∃ ps, Splits unicode ps rest := by
        rintro p rest rfl hv ⟨ps, hps⟩
        exact h ⟨p :: ps, .cons hv hps⟩
      cases input with
      | nil => exact absurd ⟨[], .nil⟩ h
      | cons c rest =>
          by_cases hesc : c = '\\'
          · subst hesc
            cases rest with
            | nil => exact ⟨_, by rw [scanFrom]⟩
            | cons escaped rest =>
                rw [scanFrom]
                exact ih rest.length (by simp) rest
                  (hrest (.escape escaped) rest rfl trivial) _ _ _ rfl
          by_cases hsig : c = '$' ∨ c = '<'
          · obtain ⟨sigil, rfl⟩ := sigil_char_cases hsig
            rw [scanFrom_sigil]
            cases htok : parseToken unicode i sigil.char rest with
            | error e => exact ⟨e, rfl⟩
            | ok token =>
                obtain ⟨r, rest', rfl, hv, rfl, rfl⟩ := exists_reference_of_parseToken unicode htok
                dsimp only
                rcases hon : onToken (r.token i) s with ⟨text | text, s'⟩
                · exact ⟨text, rfl⟩
                · have hdrop : (r.text ++ rest').drop (r.token i).len = rest' := List.drop_left
                  dsimp only
                  rw [← List.cons_append, ← Reference.text, hdrop]
                  refine ih rest'.length ?_ rest' (hrest (.reference r) rest' rfl hv) _ _ _ rfl
                  simp only [List.length_cons, List.length_append]
                  omega
          · have hc : c ≠ '\\' ∧ c ≠ '$' ∧ c ≠ '<' := ⟨hesc, not_or.mp hsig⟩
            rw [scanFrom_plain unicode onToken i result rest s hc]
            exact ih rest.length (by simp) rest (hrest (.plain c) rest rfl hc) _ _ _ rfl

/-! ### The readers on a split -/

/-- A caller that accepts every reference makes the walk succeed, and is called if there is a
reference at all. -/
theorem walk_accept (s' : σ) (i : ℕ) (result : Text) (ps : List Piece) (s : σ) :
    ∃ text, walk (fun _ _ => (.ok [], s')) i result ps s =
      (.ok text, if ps.any Piece.isReference then s' else s) := by
  induction ps generalizing i result s with
  | nil => exact ⟨result, by simp [walk]⟩
  | cons p ps ih =>
      cases p with
      | plain c => exact ih (i + 1) (result ++ [c]) s
      | escape c => exact ih (i + 2) (result ++ [c]) s
      | reference r =>
          obtain ⟨text, h⟩ := ih (i + r.text.length) (result ++ []) s'
          refine ⟨text, ?_⟩
          simp only [walk, h, List.any_cons, Piece.isReference, Bool.true_or, if_true, ite_self]

/-- A caller that collects the references collects the tokens of the split. -/
theorem walk_collect (i : ℕ) (result : Text) (ps : List Piece) (found : List Token) :
    ∃ text, walk (fun token found => (.ok [], found ++ [token])) i result ps found =
      (.ok text, found ++ tokensFrom i ps) := by
  induction ps generalizing i result found with
  | nil => exact ⟨result, by simp [walk, tokensFrom]⟩
  | cons p ps ih =>
      cases p with
      | plain c => exact ih (i + 1) (result ++ [c]) found
      | escape c => exact ih (i + 2) (result ++ [c]) found
      | reference r =>
          obtain ⟨text, h⟩ := ih (i + r.text.length) (result ++ []) (found ++ [r.token i])
          refine ⟨text, ?_⟩
          simp only [walk, h, tokensFrom, List.append_assoc, List.singleton_append]

section values

variable (hostEnv : Text → Option Text) (configVars : Text → Option (Option Text))

/-- `resolve` finds exactly the value of the reference. -/
theorem resolve_value (r : Reference) (start : ℕ) (v : Text) :
    resolve (r.token start).sigil (r.token start).name (r.token start).default hostEnv configVars =
      .ok v ↔ r.value hostEnv configVars = some v := by
  have hs : r.sigil = .env ∨ r.sigil = .config := by cases r.sigil <;> simp
  rcases hs with hs | hs
  · simp only [Reference.token, resolve, Reference.value, hs, Sigil.char, if_true]
    cases hostEnv r.name with
    | some w => simp
    | none => cases r.default <;> simp
  · simp only [Reference.token, resolve, Reference.value, hs, Sigil.char,
      show ¬ '<' = '$' by decide, if_false]
    rcases configVars r.name with _ | _ | w <;> simp

/-- Substitution over a split: the concatenation of the pieces' values. -/
theorem walk_resolve (i : ℕ) (result : Text) (ps : List Piece) (out : Text) :
    (walk (fun token (_ : Unit) =>
      (resolve token.sigil token.name token.default hostEnv configVars, ())) i result ps ()).1 =
        .ok out ↔ ∃ v, denote hostEnv configVars ps = some v ∧ out = result ++ v := by
  induction ps generalizing i result with
  | nil =>
      simp only [walk, denote, Except.ok.injEq, Option.some.injEq, exists_eq_left']
      rw [List.append_nil]
      exact eq_comm
  | cons p ps ih =>
      cases p with
      | plain c =>
          simp only [walk, denote, Piece.value]
          rw [ih]
          cases denote hostEnv configVars ps <;> simp
      | escape c =>
          simp only [walk, denote, Piece.value]
          rw [ih]
          cases denote hostEnv configVars ps <;> simp
      | reference r =>
          simp only [walk, denote, Piece.value]
          have hres := resolve_value hostEnv configVars r i
          generalize resolve (r.token i).sigil (r.token i).name (r.token i).default hostEnv
            configVars = outcome at hres
          cases outcome with
          | error e =>
              have hnone : r.value hostEnv configVars = none := by
                cases hv : r.value hostEnv configVars with
                | none => rfl
                | some w => exact absurd ((hres w).mpr hv) (by simp)
              simp [hnone]
          | ok w =>
              rw [(hres w).mp rfl]
              dsimp only
              rw [ih]
              cases denote hostEnv configVars ps <;> simp

end values

/-! ### Spans -/

/-- The tokens of a split lie one after another inside the input. -/
theorem tokensFrom_spans (i : ℕ) (ps : List Piece) :
    (∀ t ∈ tokensFrom i ps, i ≤ t.start ∧ 0 < t.len ∧
      t.start + t.len ≤ i + (ps.flatMap Piece.text).length) ∧
    (tokensFrom i ps).Pairwise (fun a b => a.start + a.len ≤ b.start) := by
  induction ps generalizing i with
  | nil => simp [tokensFrom]
  | cons p ps ih =>
      obtain ⟨hb, hp⟩ := ih (i + p.text.length)
      -- the references after the first piece, seen from the start of that piece
      have hlater : ∀ t ∈ tokensFrom (i + p.text.length) ps, i ≤ t.start ∧ 0 < t.len ∧
          t.start + t.len ≤ i + ((p :: ps).flatMap Piece.text).length := by
        intro t ht
        have := hb t ht
        simp only [List.flatMap_cons, List.length_append]
        omega
      cases p with
      | plain c => exact ⟨hlater, hp⟩
      | escape c => exact ⟨hlater, hp⟩
      | reference r =>
          simp only [tokensFrom, List.mem_cons, List.pairwise_cons]
          refine ⟨?_, ?_, hp⟩
          · rintro t (rfl | ht)
            · simp only [Reference.token, List.flatMap_cons, Piece.text, List.length_append]
              refine ⟨le_rfl, ?_, by omega⟩
              simp [Reference.text]
            · exact hlater t ht
          · intro t ht
            exact (hb t ht).1

theorem Splits.text_eq {ps : List Piece} {input : Text} (h : Splits unicode ps input) :
    ps.flatMap Piece.text = input := by
  induction h with
  | nil => rfl
  | cons _ _ ih => rw [List.flatMap_cons, ih]

/-! ### The readers denote the grammar -/

variable {unicode}

theorem scan_splits (onToken : Token → σ → Except Error Text × σ) {ps : List Piece} {input : Text}
    (h : Splits unicode ps input) (s : σ) :
    scan unicode input onToken s = walk onToken 0 [] ps s :=
      scanFrom_splits unicode onToken h 0 [] s

theorem checkSyntax_splits {ps : List Piece} {input : Text} (h : Splits unicode ps input) :
    checkSyntax unicode input = .ok () := by
  obtain ⟨text, hw⟩ := walk_accept () 0 [] ps ()
  rw [checkSyntax, scan_splits _ h, hw]
  rfl

theorem checkSyntax_error {input : Text} (h : ¬ ∃ ps, Splits unicode ps input) :
    ∃ e, checkSyntax unicode input = .error e := by
  obtain ⟨e, he⟩ := scanFrom_error unicode (fun _ (_ : Unit) => (.ok [], ())) input h 0 [] ()
  exact ⟨e, by rw [checkSyntax, scan, he]; rfl⟩

theorem checkSyntax_ok_iff (input : Text) :
    checkSyntax unicode input = .ok () ↔ ∃ ps, Splits unicode ps input := by
  constructor
  · intro h
    by_contra hn
    obtain ⟨e, he⟩ := checkSyntax_error hn
    rw [he] at h
    cases h
  · rintro ⟨ps, h⟩
    exact checkSyntax_splits h

theorem references_splits {ps : List Piece} {input : Text} (h : Splits unicode ps input) :
    references unicode input = .ok (tokensFrom 0 ps) := by
  obtain ⟨text, hw⟩ := walk_collect 0 [] ps []
  rw [references, scan_splits _ h, hw]
  rfl

theorem references_error {input : Text} (h : ¬ ∃ ps, Splits unicode ps input) :
    ∃ e, references unicode input = .error e := by
  obtain ⟨e, he⟩ := scanFrom_error unicode
    (fun token (found : List Token) => (.ok [], found ++ [token])) input h 0 [] []
  refine ⟨e, ?_⟩
  rw [references, scan]
  split
  · rename_i heq
    rw [heq] at he
    rw [Except.error.inj he]
  · rename_i heq
    rw [heq] at he
    cases he

theorem containsExpression_splits {ps : List Piece} {input : Text} (h : Splits unicode ps input) :
    containsExpression unicode input = ps.any Piece.isReference := by
  obtain ⟨text, hw⟩ := walk_accept true 0 [] ps false
  rw [containsExpression, scan_splits _ h, hw]
  cases ps.any Piece.isReference <;> rfl

theorem containsExpression_error {input : Text} (h : ¬ ∃ ps, Splits unicode ps input) :
    containsExpression unicode input = false := by
  obtain ⟨e, he⟩ := scanFrom_error unicode (fun _ (_ : Bool) => (.ok [], true)) input h 0 [] false
  rw [containsExpression, scan]
  generalize scanFrom unicode (fun _ (_ : Bool) => (.ok [], true)) 0 [] input false = outcome at he
  obtain ⟨wellFormed, found⟩ := outcome
  dsimp only at he ⊢
  rw [he]
  exact Bool.and_false _

theorem interpolate_ok_iff (input : Text) (hostEnv : Text → Option Text)
    (configVars : Text → Option (Option Text)) (out : Text) :
    interpolate unicode input hostEnv configVars = .ok out ↔
      ∃ ps, Splits unicode ps input ∧ denote hostEnv configVars ps = some out := by
  by_cases h : ∃ ps, Splits unicode ps input
  · obtain ⟨ps, hps⟩ := h
    rw [interpolate, scan_splits _ hps, walk_resolve]
    constructor
    · rintro ⟨v, hv, rfl⟩
      exact ⟨ps, hps, by simpa using hv⟩
    · rintro ⟨qs, hqs, hv⟩
      obtain rfl := Splits.unique unicode hps hqs
      exact ⟨out, hv, rfl⟩
  · constructor
    · intro hi
      obtain ⟨e, he⟩ := scanFrom_error unicode (fun token (_ : Unit) =>
        (resolve token.sigil token.name token.default hostEnv configVars, ())) input h 0 [] ()
      rw [interpolate, scan, he] at hi
      cases hi
    · rintro ⟨ps, hps, _⟩
      exact absurd ⟨ps, hps⟩ h

/-- The values of a split concatenate unless one of its references has none. -/
theorem denote_eq_none_iff (hostEnv : Text → Option Text)
    (configVars : Text → Option (Option Text)) (ps : List Piece) :
    denote hostEnv configVars ps = none ↔
      ∃ r, Piece.reference r ∈ ps ∧ r.value hostEnv configVars = none := by
  induction ps with
  | nil => simp [denote]
  | cons p ps ih =>
      have hp : p.value hostEnv configVars = none ↔
          ∃ r, p = .reference r ∧ r.value hostEnv configVars = none := by
        cases p <;> simp [Piece.value]
      rw [denote]
      cases hv : p.value hostEnv configVars with
      | none =>
          obtain ⟨r, rfl, hr⟩ := hp.mp hv
          exact ⟨fun _ => ⟨r, by simp, hr⟩, fun _ => rfl⟩
      | some v =>
          have hnot : ∀ r, p = .reference r → r.value hostEnv configVars ≠ none := by
            intro r hr hn
            have := hp.mpr ⟨r, hr, hn⟩
            rw [hv] at this
            cases this
          constructor
          · intro h
            have hps : denote hostEnv configVars ps = none := by
              cases hd : denote hostEnv configVars ps with
              | none => rfl
              | some vs => simp [hd] at h
            obtain ⟨r, hr, hn⟩ := ih.mp hps
            exact ⟨r, by simp [hr], hn⟩
          · rintro ⟨r, hr, hn⟩
            rcases List.mem_cons.mp hr with rfl | hr
            · exact absurd hn (hnot r rfl)
            · rw [ih.mpr ⟨r, hr, hn⟩]
              rfl

theorem interpolate_error_iff (input : Text) (hostEnv : Text → Option Text)
    (configVars : Text → Option (Option Text)) :
    (∃ e, interpolate unicode input hostEnv configVars = .error e) ↔
      (∃ e, checkSyntax unicode input = .error e) ∨
      ∃ ps r, Splits unicode ps input ∧ Piece.reference r ∈ ps ∧
        r.value hostEnv configVars = none := by
  by_cases h : ∃ ps, Splits unicode ps input
  · obtain ⟨ps, hps⟩ := h
    have hok := @interpolate_ok_iff unicode input hostEnv configVars
    rw [checkSyntax_splits hps]
    constructor
    · rintro ⟨e, he⟩
      right
      have hnone : denote hostEnv configVars ps = none := by
        cases hd : denote hostEnv configVars ps with
        | none => rfl
        | some v =>
            have := (hok v).mpr ⟨ps, hps, hd⟩
            rw [he] at this
            cases this
      obtain ⟨r, hr, hn⟩ := (denote_eq_none_iff hostEnv configVars ps).mp hnone
      exact ⟨ps, r, hps, hr, hn⟩
    · rintro (⟨e, he⟩ | ⟨qs, r, hqs, hr, hn⟩)
      · cases he
      · obtain rfl := Splits.unique unicode hps hqs
        have hnone := (denote_eq_none_iff hostEnv configVars ps).mpr ⟨r, hr, hn⟩
        cases hi : interpolate unicode input hostEnv configVars with
        | error e => exact ⟨e, rfl⟩
        | ok out =>
            obtain ⟨qs, hqs, hd⟩ := (hok out).mp hi
            obtain rfl := Splits.unique unicode hps hqs
            rw [hnone] at hd
            cases hd
  · have hcheck := checkSyntax_error h
    refine ⟨fun _ => .inl hcheck, fun _ => ?_⟩
    cases hi : interpolate unicode input hostEnv configVars with
    | error e => exact ⟨e, rfl⟩
    | ok out =>
        obtain ⟨ps, hps, _⟩ := (interpolate_ok_iff input hostEnv configVars out).mp hi
        exact absurd ⟨ps, hps⟩ h

/-- **The readers accept exactly the documented grammar and denote it.**  A split is unique;
`check_syntax` succeeds exactly on inputs with one; `references` returns the split's references
in order, with disjoint spans inside the input; `contains_expression` says whether there is one;
and `interpolate` returns the concatenation of the literal characters and the references' values,
failing exactly where `check_syntax` does or a reference has no value. -/
theorem expression_grammar (unicode : Char → Bool) (input : Text) (hostEnv : Text → Option Text)
    (configVars : Text → Option (Option Text)) :
    (∀ ps qs, Splits unicode ps input → Splits unicode qs input → ps = qs) ∧
    (checkSyntax unicode input = .ok () ↔ ∃ ps, Splits unicode ps input) ∧
    (∀ ps, Splits unicode ps input → references unicode input = .ok (tokensFrom 0 ps) ∧
      (∀ t ∈ tokensFrom 0 ps, 0 < t.len ∧ t.start + t.len ≤ input.length) ∧
      (tokensFrom 0 ps).Pairwise (fun a b => a.start + a.len ≤ b.start)) ∧
    ((∃ e, references unicode input = .error e) ↔ ∃ e, checkSyntax unicode input = .error e) ∧
    (containsExpression unicode input = true ↔
      ∃ ps r, Splits unicode ps input ∧ Piece.reference r ∈ ps) ∧
    (∀ out, interpolate unicode input hostEnv configVars = .ok out ↔
      ∃ ps, Splits unicode ps input ∧ denote hostEnv configVars ps = some out) ∧
    ((∃ e, interpolate unicode input hostEnv configVars = .error e) ↔
      (∃ e, checkSyntax unicode input = .error e) ∨
      ∃ ps r, Splits unicode ps input ∧ Piece.reference r ∈ ps ∧
        r.value hostEnv configVars = none) := by
  refine ⟨fun ps qs => Splits.unique unicode, checkSyntax_ok_iff input, ?_, ?_, ?_,
    interpolate_ok_iff input hostEnv configVars, interpolate_error_iff input hostEnv configVars⟩
  · intro ps hps
    obtain ⟨hb, hp⟩ := tokensFrom_spans 0 ps
    refine ⟨references_splits hps, fun t ht => ?_, hp⟩
    have := hb t ht
    rw [Splits.text_eq unicode hps] at this
    omega
  · by_cases h : ∃ ps, Splits unicode ps input
    · obtain ⟨ps, hps⟩ := h
      simp [references_splits hps, checkSyntax_splits hps]
    · exact ⟨fun _ => checkSyntax_error h, fun _ => references_error h⟩
  · by_cases h : ∃ ps, Splits unicode ps input
    · obtain ⟨ps, hps⟩ := h
      rw [containsExpression_splits hps, List.any_eq_true]
      constructor
      · rintro ⟨p, hp, hr⟩
        cases p with
        | plain c => cases hr
        | escape c => cases hr
        | reference r => exact ⟨ps, r, hps, hp⟩
      · rintro ⟨qs, r, hqs, hr⟩
        obtain rfl := Splits.unique unicode hps hqs
        exact ⟨.reference r, hr, rfl⟩
    · rw [containsExpression_error h]
      constructor
      · intro hf
        cases hf
      · rintro ⟨ps, r, hps, _⟩
        exact absurd ⟨ps, hps⟩ h

end grammar

end Ratect.Expressions
