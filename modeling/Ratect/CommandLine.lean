import Ratect.FieldRules

/-! # Command lines

What `tokenize_command_line` reads.  A command line is made of pieces (`Piece`): white space, plain
characters, characters behind a backslash, and texts in single or in double quotes.  White space
separates, and the rest is joined to words; a word without a character other than white space is
dropped, but at the end only if it is empty (`arguments`).

The tokenizer returns the arguments of a line that is made of pieces (`tokenize_pieces`), and every
other line ends in an open quote or a dangling backslash, where it fails (`pieces_or_broken`,
`Broken.fails`).  A list of arguments is read back from any quoting of each, joined by spaces
(`tokenize_quoted`). -/

namespace Ratect

/-! ### Pieces -/

/-- What stands between double quotes for one character. -/
inductive Inner where
  | plain (c : Char)
  | escaped (c : Char)
deriving DecidableEq

namespace Inner

def text : Inner → Text
  | plain c => [c]
  | escaped c => ['\\', c]

def value : Inner → Char
  | plain c => c
  | escaped c => c

/-- It is read as it was written. -/
def Proper : Inner → Prop
  | plain c => c ≠ '\x22' ∧ c ≠ '\\'
  | escaped _ => True

end Inner

/-- A piece of a command line. -/
inductive Piece where
  | blank (c : Char)
  | plain (c : Char)
  | escaped (c : Char)
  | single (body : Text)
  | double (body : List Inner)
deriving DecidableEq

namespace Piece

/-- How the piece is written. -/
def text : Piece → Text
  | blank c => [c]
  | plain c => [c]
  | escaped c => ['\\', c]
  | single body => '\x27' :: body ++ ['\x27']
  | double body => '\x22' :: body.flatMap Inner.text ++ ['\x22']

/-- What the piece adds to its word. -/
def value : Piece → Text
  | blank _ => []
  | plain c => [c]
  | escaped c => [c]
  | single body => body
  | double body => body.map Inner.value

def isBlank : Piece → Bool
  | blank _ => true
  | _ => false

/-- The piece is read as it was written. -/
def Proper : Piece → Prop
  | blank c => isWhitespace c = true
  | plain c => isWhitespace c = false ∧ c ∉ ['\x27', '\x22', '\\']
  | escaped _ => True
  | single body => '\x27' ∉ body
  | double body => ∀ inner ∈ body, inner.Proper

end Piece

/-- The line is written by the pieces. -/
def Spells (pieces : List Piece) (line : Text) : Prop :=
  (∀ piece ∈ pieces, piece.Proper) ∧ line = pieces.flatMap Piece.text

/-- The text has a character that is no white space. -/
def holdsNonBlank (t : Text) : Bool := t.any fun c => !isWhitespace c

/-- The words between white space, some of them empty. -/
def words (pieces : List Piece) : List Text :=
  (pieces.splitOnP Piece.isBlank).map (List.flatMap Piece.value)

/-- The arguments: the words but for blank ones, and the last one unless it is empty. -/
def arguments (pieces : List Piece) : List Text :=
  (words pieces).dropLast.filter holdsNonBlank ++ ((words pieces).getLast?.filter (· ≠ [])).toList

/-- The line leaves a quote open or ends in a backslash outside single quotes. -/
inductive Broken : Text → Prop where
  | openSingle {pieces : List Piece} {start body : Text} (hpieces : Spells pieces start)
      (hbody : '\x27' ∉ body) :
      Broken (start ++ '\x27' :: body)
  | openDouble {pieces : List Piece} {start : Text} {body : List Inner}
      (hpieces : Spells pieces start)
      (hbody : ∀ inner ∈ body, inner.Proper) : Broken (start ++ '\x22' :: body.flatMap Inner.text)
  | dangling {pieces : List Piece} {start : Text} (hpieces : Spells pieces start) :
      Broken (start ++ ['\\'])
  | danglingQuoted {pieces : List Piece} {start : Text} {body : List Inner}
      (hpieces : Spells pieces start)
      (hbody : ∀ inner ∈ body, inner.Proper) :
        Broken (start ++ '\x22' :: (body.flatMap Inner.text ++ ['\\']))

/-! ### Every line is made of pieces, or broken -/

theorem Spells.cons {piece : Piece} {pieces : List Piece} {line : Text} (hpiece : piece.Proper)
    (h : Spells pieces line) : Spells (piece :: pieces) (piece.text ++ line) := by
  obtain ⟨hproper, rfl⟩ := h
  refine ⟨?_, rfl⟩
  intro p hp
  rcases List.mem_cons.mp hp with rfl | hp
  · exact hpiece
  · exact hproper p hp

theorem Spells.append {pieces later : List Piece} {line rest : Text} (h : Spells pieces line)
    (hrest : Spells later rest) : Spells (pieces ++ later) (line ++ rest) := by
  obtain ⟨hproper, rfl⟩ := h
  obtain ⟨hlater, rfl⟩ := hrest
  refine ⟨?_, List.flatMap_append.symm⟩
  intro p hp
  rcases List.mem_append.mp hp with hp | hp
  · exact hproper p hp
  · exact hlater p hp

theorem spells_nil : Spells [] [] := ⟨fun _ h => absurd h List.not_mem_nil, rfl⟩

theorem Broken.cons {piece : Piece} {line : Text} (hpiece : piece.Proper) (h : Broken line) :
    Broken (piece.text ++ line) := by
  cases h with
  | openSingle hpieces hbody =>
      rw [← List.append_assoc]
      exact .openSingle (hpieces.cons hpiece) hbody
  | openDouble hpieces hbody =>
      rw [← List.append_assoc]
      exact .openDouble (hpieces.cons hpiece) hbody
  | dangling hpieces =>
      rw [← List.append_assoc]
      exact .dangling (hpieces.cons hpiece)
  | danglingQuoted hpieces hbody =>
      rw [← List.append_assoc]
      exact .danglingQuoted (hpieces.cons hpiece) hbody

/-- What follows a double quote: the text up to the next, or one that leaves it open. -/
theorem quoted_cases (line : Text) : ∃ body : List Inner, (∀ inner ∈ body, inner.Proper) ∧
    ((∃ rest, line = body.flatMap Inner.text ++ '\x22' :: rest) ∨ line = body.flatMap Inner.text ∨
      line = body.flatMap Inner.text ++ ['\\']) := by
  match line with
  | [] => exact ⟨[], fun _ h => absurd h List.not_mem_nil, Or.inr (Or.inl rfl)⟩
  | c :: rest =>
      by_cases hquote : c = '\x22'
      · subst hquote
        exact ⟨[], fun _ h => absurd h List.not_mem_nil, Or.inl ⟨rest, rfl⟩⟩
      by_cases hbackslash : c = '\\'
      · subst hbackslash
        match rest with
        | [] => exact ⟨[], fun _ h => absurd h List.not_mem_nil, Or.inr (Or.inr rfl)⟩
        | escaped :: rest =>
            obtain ⟨body, hproper, hcases⟩ := quoted_cases rest
            refine ⟨.escaped escaped :: body, ?_, ?_⟩
            · intro inner hinner
              rcases List.mem_cons.mp hinner with rfl | hinner
              · trivial
              · exact hproper inner hinner
            · rcases hcases with ⟨rest', rfl⟩ | rfl | rfl
              · exact Or.inl ⟨rest', rfl⟩
              · exact Or.inr (Or.inl rfl)
              · exact Or.inr (Or.inr rfl)
      · obtain ⟨body, hproper, hcases⟩ := quoted_cases rest
        refine ⟨.plain c :: body, ?_, ?_⟩
        · intro inner hinner
          rcases List.mem_cons.mp hinner with rfl | hinner
          · exact ⟨hquote, hbackslash⟩
          · exact hproper inner hinner
        · rcases hcases with ⟨rest', rfl⟩ | rfl | rfl
          · exact Or.inl ⟨rest', rfl⟩
          · exact Or.inr (Or.inl rfl)
          · exact Or.inr (Or.inr rfl)
termination_by line.length

/-- A line is made of pieces, or leaves a quote open, or ends in a backslash. -/
theorem pieces_or_broken (line : Text) : (∃ pieces, Spells pieces line) ∨ Broken line := by
  induction hlength : line.length using Nat.strong_induction_on generalizing line with
  | _ n ih =>
    subst hlength
    have hpiece : ∀ (piece : Piece) (rest : Text), piece.Proper → line = piece.text ++ rest →
        0 < piece.text.length → (∃ pieces, Spells pieces line) ∨ Broken line := by
      rintro piece rest hproper rfl hpos
      rcases ih rest.length (by rw [List.length_append]; omega) rest rfl with ⟨pieces, h⟩ | h
      · exact Or.inl ⟨_, h.cons hproper⟩
      · exact Or.inr (h.cons hproper)
    match line with
    | [] => exact Or.inl ⟨[], spells_nil⟩
    | c :: rest =>
        by_cases hsingle : c = '\x27'
        · subst hsingle
          by_cases hclosed : '\x27' ∈ rest
          · obtain ⟨body, rest', rfl, hbody⟩ := List.eq_append_cons_of_mem hclosed
            exact hpiece (.single body) rest' hbody (by simp [Piece.text]) (by simp [Piece.text])
          · exact Or.inr (.openSingle spells_nil hclosed)
        by_cases hdouble : c = '\x22'
        · subst hdouble
          obtain ⟨body, hproper, ⟨rest', rfl⟩ | rfl | rfl⟩ := quoted_cases rest
          · exact hpiece (.double body) rest' hproper (by simp [Piece.text]) (by simp [Piece.text])
          · exact Or.inr (.openDouble spells_nil hproper)
          · exact Or.inr (.danglingQuoted spells_nil hproper)
        by_cases hbackslash : c = '\\'
        · subst hbackslash
          match rest with
          | [] => exact Or.inr (.dangling spells_nil)
          | escaped :: rest => exact hpiece (.escaped escaped) rest trivial rfl Nat.zero_lt_two
        by_cases hblank : isWhitespace c = true
        · exact hpiece (.blank c) rest hblank rfl Nat.zero_lt_one
        · refine hpiece (.plain c) rest ⟨by simpa using hblank, ?_⟩ rfl Nat.zero_lt_one
          simp [hsingle, hdouble, hbackslash]

/-! ### What the tokenizer makes of a piece -/

section tokenizing

variable (input : Text) (finished : List Text) (current : Text)

theorem tokenizeFrom_single {body : Text} (hbody : '\x27' ∉ body) (rest : Text) :
    tokenizeFrom input .singleQuote finished current (body ++ '\x27' :: rest) =
      tokenizeFrom input .normal finished (current ++ body) rest := by
  induction body generalizing current with
  | nil =>
      rw [List.nil_append, List.append_nil, tokenizeFrom.eq_def]
      dsimp only
      rw [if_pos rfl, if_pos rfl]
  | cons c body ih =>
      rw [List.mem_cons, not_or] at hbody
      rw [List.cons_append, tokenizeFrom.eq_def]
      dsimp only
      rw [if_pos rfl, if_neg (Ne.symm hbody.1), ih _ hbody.2, List.append_assoc]
      rfl

theorem tokenizeFrom_inner {body : List Inner} (hbody : ∀ inner ∈ body, inner.Proper)
    (rest : Text) :
    tokenizeFrom input .doubleQuote finished current (body.flatMap Inner.text ++ rest) =
      tokenizeFrom input .doubleQuote finished (current ++ body.map Inner.value) rest := by
  induction body generalizing current with
  | nil => rw [List.map_nil, List.append_nil]; rfl
  | cons inner body ih =>
      have hrest := ih (current ++ [inner.value]) fun i hi => hbody i (List.mem_cons_of_mem _ hi)
      rw [List.append_assoc] at hrest
      rw [List.flatMap_cons, List.append_assoc, List.map_cons, ← List.singleton_append, ← hrest]
      cases inner with
      | plain c =>
          obtain ⟨hquote, hbackslash⟩ := hbody _ List.mem_cons_self
          show tokenizeFrom input .doubleQuote finished current
            (c :: (body.flatMap Inner.text ++ rest)) = _
          rw [tokenizeFrom.eq_def]
          dsimp only
          rw [if_neg (by decide), if_neg hbackslash, if_neg hquote, if_pos rfl]
          rfl
      | escaped c =>
          show tokenizeFrom input .doubleQuote finished current
            ('\\' :: c :: (body.flatMap Inner.text ++ rest)) = _
          rw [tokenizeFrom.eq_def]
          dsimp only
          rw [if_neg (by decide), if_pos rfl]
          rfl

/-- A single quote that is not closed is refused. -/
theorem tokenizeFrom_openSingle {body : Text} (hbody : '\x27' ∉ body) :
    ∃ message, tokenizeFrom input .singleQuote finished current body = .error message := by
  induction body generalizing current with
  | nil => exact ⟨_, rfl⟩
  | cons c body ih =>
      rw [List.mem_cons, not_or] at hbody
      rw [tokenizeFrom.eq_def]
      dsimp only
      rw [if_pos rfl, if_neg (Ne.symm hbody.1)]
      exact ih _ hbody.2

/-- A piece that is not blank goes to the word that is being read. -/
theorem tokenizeFrom_piece {piece : Piece} (hpiece : piece.Proper) (hblank : piece.isBlank = false)
    (rest : Text) :
    tokenizeFrom input .normal finished current (piece.text ++ rest) =
      tokenizeFrom input .normal finished (current ++ piece.value) rest := by
  cases piece with
  | blank c => cases hblank
  | plain c =>
      obtain ⟨hspace, hc⟩ := hpiece
      simp only [List.mem_cons, List.not_mem_nil, or_false, not_or] at hc
      show tokenizeFrom input .normal finished current (c :: rest) = _
      rw [tokenizeFrom.eq_def]
      dsimp only
      rw [if_neg (by decide), if_neg hc.2.2, if_neg hc.2.1, if_neg (by decide),
        if_neg (by simp [hspace]), if_neg hc.1]
      rfl
  | escaped c =>
      show tokenizeFrom input .normal finished current ('\\' :: c :: rest) = _
      rw [tokenizeFrom.eq_def]
      dsimp only
      rw [if_neg (by decide), if_pos rfl]
      rfl
  | single body =>
      show tokenizeFrom input .normal finished current ('\x27' :: (body ++ ['\x27']) ++ rest) = _
      rw [List.cons_append, List.append_assoc, tokenizeFrom.eq_def]
      dsimp only
      rw [if_neg (by decide), if_neg (by decide), if_neg (by decide),
        if_neg (by decide), if_neg (by decide), if_pos rfl]
      exact tokenizeFrom_single input finished current hpiece rest
  | double body =>
      show tokenizeFrom input .normal finished current
        ('\x22' :: (body.flatMap Inner.text ++ ['\x22']) ++ rest) = _
      rw [List.cons_append, List.append_assoc, tokenizeFrom.eq_def]
      dsimp only
      rw [if_neg (by decide), if_neg (by decide), if_pos rfl, if_pos rfl,
        tokenizeFrom_inner input finished current hpiece, List.singleton_append,
        tokenizeFrom.eq_def]
      dsimp only
      rw [if_neg (by decide), if_neg (by decide), if_pos rfl, if_neg (by decide)]
      rfl

/-- White space ends the word, which is kept if it holds something else. -/
theorem tokenizeFrom_blank {c : Char} (hc : isWhitespace c = true) (rest : Text) :
    tokenizeFrom input .normal finished current (c :: rest) =
      tokenizeFrom input .normal (finished ++ [current].filter holdsNonBlank) [] rest := by
  have hplain : c ≠ '\\' ∧ c ≠ '\x22' := by
    constructor
    · rintro rfl
      revert hc
      decide
    · rintro rfl
      revert hc
      decide
  rw [tokenizeFrom.eq_def]
  dsimp only
  rw [if_neg (by decide), if_neg hplain.1, if_neg hplain.2, if_neg (by decide), if_pos hc]
  by_cases hword : holdsNonBlank current = true
  · rw [List.filter_cons_of_pos hword]
    exact if_pos hword
  · rw [List.filter_cons_of_neg hword, List.filter_nil, List.append_nil]
    exact if_neg hword

end tokenizing

/-! ### What the tokenizer makes of a line -/

/-- The arguments of the pieces that are left, with what is read of the first word. -/
def argumentsFrom : Text → List Piece → List Text
  | current, [] => [current].filter (· ≠ [])
  | current, piece :: pieces =>
      if piece.isBlank then [current].filter holdsNonBlank ++ argumentsFrom [] pieces
      else argumentsFrom (current ++ piece.value) pieces

theorem tokenizeFrom_pieces (input : Text) {pieces : List Piece}
    (hproper : ∀ piece ∈ pieces, piece.Proper) (finished : List Text) (current : Text) :
    tokenizeFrom input .normal finished current (pieces.flatMap Piece.text) =
      .ok (finished ++ argumentsFrom current pieces) := by
  induction pieces generalizing finished current with
  | nil =>
      show Except.ok (if current = [] then finished else finished ++ [current]) = _
      unfold argumentsFrom
      by_cases hcurrent : current = []
      · rw [if_pos hcurrent, List.filter_cons_of_neg (by simp [hcurrent]),
          List.filter_nil, List.append_nil]
      · rw [if_neg hcurrent, List.filter_cons_of_pos (by simp [hcurrent]), List.filter_nil]
  | cons piece pieces ih =>
      have hrest := ih fun p hp => hproper p (List.mem_cons_of_mem _ hp)
      have hpiece := hproper piece List.mem_cons_self
      rw [List.flatMap_cons]
      unfold argumentsFrom
      cases hblank : piece.isBlank with
      | false =>
          rw [tokenizeFrom_piece input finished current hpiece hblank, hrest, if_neg (by decide)]
      | true =>
          obtain ⟨c, rfl⟩ : ∃ c, piece = .blank c := by
            cases piece with
            | blank c => exact ⟨c, rfl⟩
            | plain => cases hblank
            | escaped => cases hblank
            | single => cases hblank
            | double => cases hblank
          show tokenizeFrom input .normal finished current (c :: pieces.flatMap Piece.text) = _
          rw [tokenizeFrom_blank input finished current hpiece, hrest,
            if_pos rfl, List.append_assoc]

/-- Pieces leave the tokenizer between words, whatever comes after them. -/
theorem tokenizeFrom_spells (input : Text) {pieces : List Piece}
    (hproper : ∀ piece ∈ pieces, piece.Proper) (finished : List Text)
    (current rest : Text) : ∃ finished' current',
      tokenizeFrom input .normal finished current (pieces.flatMap Piece.text ++ rest) =
        tokenizeFrom input .normal finished' current' rest := by
  induction pieces generalizing finished current with
  | nil => exact ⟨finished, current, rfl⟩
  | cons piece pieces ih =>
      have hrest := ih fun p hp => hproper p (List.mem_cons_of_mem _ hp)
      have hpiece := hproper piece List.mem_cons_self
      rw [List.flatMap_cons, List.append_assoc]
      cases piece with
      | blank c =>
          show ∃ finished' current', tokenizeFrom input .normal finished current
            (c :: (pieces.flatMap Piece.text ++ rest)) = _
          rw [tokenizeFrom_blank input finished current hpiece]
          exact hrest _ _
      | plain c =>
          rw [tokenizeFrom_piece input finished current hpiece rfl]
          exact hrest _ _
      | escaped c =>
          rw [tokenizeFrom_piece input finished current hpiece rfl]
          exact hrest _ _
      | single body =>
          rw [tokenizeFrom_piece input finished current hpiece rfl]
          exact hrest _ _
      | double body =>
          rw [tokenizeFrom_piece input finished current hpiece rfl]
          exact hrest _ _

theorem words_cons (piece : Piece) (pieces : List Piece) :
    words (piece :: pieces) =
      if piece.isBlank then [] :: words pieces
      else (words pieces).modifyHead (piece.value ++ ·) := by
  unfold words
  rw [List.splitOnP_cons_eq_if_modifyHead]
  split
  · rfl
  · cases pieces.splitOnP Piece.isBlank <;> rfl

theorem words_ne_nil (pieces : List Piece) : words pieces ≠ [] := by
  unfold words
  rw [ne_eq, List.map_eq_nil_iff]
  exact List.splitOnP_ne_nil _ _

/-- The arguments, read word by word. -/
theorem argumentsFrom_nil (pieces : List Piece) : argumentsFrom [] pieces = arguments pieces := by
  have hfrom : ∀ current, argumentsFrom current pieces =
      ((words pieces).modifyHead (current ++ ·)).dropLast.filter holdsNonBlank ++
        ((((words pieces).modifyHead (current ++ ·)).getLast?).filter (· ≠ [])).toList := by
    induction pieces with
    | nil =>
        intro current
        have hwords : words [] = [[]] := rfl
        rw [hwords]
        unfold argumentsFrom
        by_cases hcurrent : current = []
        · simp [hcurrent]
        · simp [hcurrent, Option.filter]
    | cons piece pieces ih =>
        intro current
        unfold argumentsFrom
        rw [words_cons]
        obtain ⟨word, rest, hwords⟩ := List.exists_cons_of_ne_nil (words_ne_nil pieces)
        rw [hwords] at ih ⊢
        split
        · rw [ih []]
          by_cases hword : holdsNonBlank current = true
          · simp [hword]
          · simp [hword]
        · rw [ih]
          simp
  rw [hfrom]
  unfold arguments
  obtain ⟨word, rest, hwords⟩ := List.exists_cons_of_ne_nil (words_ne_nil pieces)
  rw [hwords]
  rfl

/-- The arguments of a line that is made of pieces. -/
theorem tokenize_pieces {pieces : List Piece} {line : Text} (h : Spells pieces line) :
    tokenizeCommandLine line = .ok (arguments pieces) := by
  obtain ⟨hproper, hline⟩ := h
  unfold tokenizeCommandLine
  nth_rewrite 2 [hline]
  rw [tokenizeFrom_pieces line hproper, List.nil_append, argumentsFrom_nil]

/-- A broken line is refused. -/
theorem Broken.fails {line : Text} (h : Broken line) :
    ∃ message, tokenizeCommandLine line = .error message := by
  have hfrom : ∀ input, ∃ message, tokenizeFrom input .normal [] [] line = .error message := by
    intro input
    cases h with
    | openSingle hpieces hbody =>
        obtain ⟨hproper, rfl⟩ := hpieces
        obtain ⟨finished, current, hrest⟩ := tokenizeFrom_spells input hproper [] [] _
        rw [hrest, tokenizeFrom.eq_def]
        exact tokenizeFrom_openSingle input finished current hbody
    | openDouble hpieces hbody =>
        obtain ⟨hproper, rfl⟩ := hpieces
        obtain ⟨finished, current, hrest⟩ := tokenizeFrom_spells input hproper [] [] _
        have hopen := tokenizeFrom_inner input finished current hbody []
        rw [List.append_nil] at hopen
        rw [hrest, tokenizeFrom.eq_def]
        exact ⟨_, hopen⟩
    | dangling hpieces =>
        obtain ⟨hproper, rfl⟩ := hpieces
        obtain ⟨finished, current, hrest⟩ := tokenizeFrom_spells input hproper [] [] _
        rw [hrest]
        exact ⟨_, rfl⟩
    | danglingQuoted hpieces hbody =>
        obtain ⟨hproper, rfl⟩ := hpieces
        obtain ⟨finished, current, hrest⟩ := tokenizeFrom_spells input hproper [] [] _
        have hopen := tokenizeFrom_inner input finished current hbody ['\\']
        rw [hrest, tokenizeFrom.eq_def]
        exact ⟨_, hopen⟩
  exact hfrom line

/-- The tokenizer fails on the broken lines alone. -/
theorem tokenize_fails_iff {line : Text} :
    (∃ message, tokenizeCommandLine line = .error message) ↔ Broken line := by
  constructor
  · rintro ⟨message, hfails⟩
    rcases pieces_or_broken line with ⟨pieces, h⟩ | h
    · rw [tokenize_pieces h] at hfails
      cases hfails
    · exact h
  · exact Broken.fails

/-- What it returns is what the pieces of the line stand for. -/
theorem tokenize_eq_iff {line : Text} {result : List Text} :
    tokenizeCommandLine line = .ok result ↔
      ∃ pieces, Spells pieces line ∧ result = arguments pieces := by
  constructor
  · intro hresult
    rcases pieces_or_broken line with ⟨pieces, h⟩ | h
    · refine ⟨pieces, h, ?_⟩
      rw [tokenize_pieces h] at hresult
      exact (Except.ok.inj hresult).symm
    · obtain ⟨message, hfails⟩ := h.fails
      rw [hfails] at hresult
      cases hresult
  · rintro ⟨pieces, h, rfl⟩
    exact tokenize_pieces h

/-! ### Quoting -/

/-- A way to write an argument: pieces, none of them blank, that add up to it. -/
def Quotes (argument text : Text) : Prop :=
  ∃ pieces, Spells pieces text ∧ (∀ piece ∈ pieces, piece.isBlank = false) ∧
    argument = pieces.flatMap Piece.value

/-- In single quotes. -/
def singleQuoted (argument : Text) : Text := '\x27' :: argument ++ ['\x27']

/-- In double quotes, with a backslash before a quote or a backslash. -/
def doubleQuoted (argument : Text) : Text :=
  '\x22' :: argument.flatMap (fun c => if c = '\x22' ∨ c = '\\' then ['\\', c] else [c]) ++ ['\x22']

theorem quotes_singleQuoted {argument : Text} (h : '\x27' ∉ argument) :
    Quotes argument (singleQuoted argument) := by
  refine ⟨[.single argument], ⟨?_, ?_⟩, ?_, ?_⟩
  · intro piece hpiece
    rw [List.mem_singleton.mp hpiece]
    exact h
  · rw [List.flatMap_singleton]
    rfl
  · intro piece hpiece
    rw [List.mem_singleton.mp hpiece]
    rfl
  · rw [List.flatMap_singleton]
    rfl

theorem quotes_doubleQuoted (argument : Text) : Quotes argument (doubleQuoted argument) := by
  let inner (c : Char) : Inner := if c = '\x22' ∨ c = '\\' then .escaped c else .plain c
  refine ⟨[.double (argument.map inner)], ⟨?_, ?_⟩, ?_, ?_⟩
  · intro piece hpiece
    rw [List.mem_singleton.mp hpiece]
    intro i hi
    obtain ⟨c, -, rfl⟩ := List.mem_map.mp hi
    by_cases hc : c = '\x22' ∨ c = '\\'
    · rw [show inner c = .escaped c from if_pos hc]
      trivial
    · rw [show inner c = .plain c from if_neg hc]
      exact not_or.mp hc
  · have htexts : (argument.map inner).flatMap Inner.text =
        argument.flatMap fun c => if c = '\x22' ∨ c = '\\' then ['\\', c] else [c] := by
      rw [List.flatMap_map]
      refine List.flatMap_congr fun c _ => ?_
      show (inner c).text = _
      by_cases hc : c = '\x22' ∨ c = '\\'
      · rw [show inner c = .escaped c from if_pos hc, if_pos hc]
        rfl
      · rw [show inner c = .plain c from if_neg hc, if_neg hc]
        rfl
    rw [List.flatMap_singleton]
    show doubleQuoted argument = '\x22' :: (argument.map inner).flatMap Inner.text ++ ['\x22']
    rw [htexts]
    rfl
  · intro piece hpiece
    rw [List.mem_singleton.mp hpiece]
    rfl
  · have hvalues : (argument.map inner).map Inner.value = argument := by
      rw [List.map_map, List.map_congr_left (g := id), List.map_id]
      intro c _
      show (inner c).value = c
      by_cases hc : c = '\x22' ∨ c = '\\'
      · rw [show inner c = .escaped c from if_pos hc]
        rfl
      · rw [show inner c = .plain c from if_neg hc]
        rfl
    rw [List.flatMap_singleton]
    exact hvalues.symm

/-- Pieces that are not blank add to the word that is being read. -/
theorem argumentsFrom_append {pieces : List Piece}
    (hblank : ∀ piece ∈ pieces, piece.isBlank = false) (current : Text) (rest : List Piece) :
    argumentsFrom current (pieces ++ rest) =
      argumentsFrom (current ++ pieces.flatMap Piece.value) rest := by
  induction pieces generalizing current with
  | nil => rw [List.flatMap_nil, List.append_nil]; rfl
  | cons piece pieces ih =>
      rw [List.cons_append, argumentsFrom, hblank piece List.mem_cons_self, if_neg (by decide),
        ih (fun p hp => hblank p (List.mem_cons_of_mem _ hp)), List.flatMap_cons, List.append_assoc]

/-- Quoted arguments, with a space between each two, are written by pieces that stand for them. -/
theorem spells_quoted {args texts : List Text} (hquotes : List.Forall₂ Quotes args texts)
    (hargs : ∀ argument ∈ args, holdsNonBlank argument = true) :
    ∃ pieces, Spells pieces ([' '].intercalate texts) ∧ argumentsFrom [] pieces = args := by
  induction hquotes with
  | nil => exact ⟨[], spells_nil, rfl⟩
  | @cons argument text args texts hquote hrest ih =>
      obtain ⟨pieces, hspells, hblank, rfl⟩ := hquote
      have hargument := hargs _ List.mem_cons_self
      obtain ⟨later, hlater, hargs⟩ := ih fun a ha => hargs a (List.mem_cons_of_mem _ ha)
      cases hrest with
      | nil =>
          refine ⟨pieces, ?_, ?_⟩
          · rw [List.intercalate_singleton]
            exact hspells
          · have hall := argumentsFrom_append hblank [] []
            have hne : pieces.flatMap Piece.value ≠ [] := by
              intro hnil
              rw [hnil] at hargument
              cases hargument
            rw [List.append_nil, List.nil_append] at hall
            rw [hall]
            exact List.filter_cons_of_pos (by simpa using hne)
      | cons _ _ =>
          refine ⟨pieces ++ .blank ' ' :: later, ?_, ?_⟩
          · rw [List.intercalate_cons_cons, List.append_assoc]
            have hspace : (Piece.blank ' ').Proper := show isWhitespace ' ' = true by decide
            exact hspells.append (hlater.cons hspace)
          · rw [argumentsFrom_append hblank, List.nil_append, argumentsFrom,
              if_pos (show (Piece.blank ' ').isBlank = true from rfl),
              List.filter_cons_of_pos hargument, hargs]
            rfl

/-- Arguments that each hold more than white space are read back from any quoting of each, joined by
spaces. -/
theorem tokenize_quoted {args texts : List Text} (hquotes : List.Forall₂ Quotes args texts)
    (hargs : ∀ argument ∈ args, holdsNonBlank argument = true) :
    tokenizeCommandLine ([' '].intercalate texts) = .ok args := by
  obtain ⟨pieces, hspells, hargs⟩ := spells_quoted hquotes hargs
  rw [tokenize_pieces hspells, ← argumentsFrom_nil, hargs]

end Ratect
