import Ratect.Text

/-! # The expression reader

`expressions.rs`: Batect's expression syntax (`$VAR`, `${VAR:-default}`, `<name`, `<{name}`
and the `\` escape) and the one walk every reader of it shares.

* `parseToken` reads the reference whose sigil is at position `start`; its loops are
  `nameEnd` (an unbraced name), `readName` (a braced name) and `readDefault`.
* `scan` walks the input, replacing each reference with what `onToken` makes of it;
  `interpolate`, `containsExpression`, `checkSyntax` and `references` are the four readers.

The source indexes one vector `chars` by `i`.  Here every loop carries both `i` and the suffix
`chars[i..]`, so `chars.get(i)` is the head of the suffix and `chars.get(i + 1)` the one after
it; the closure `on_token`, which may change what it captures, takes and returns that captured
state explicitly, also when it fails. -/

namespace Ratect.Expressions

/-- An `anyhow` error of this module: its message. -/
abbrev Error := String

/-- One well-formed reference: its span in characters, its sigil, its name and the default of a
`${VAR:-default}` with the escapes applied. -/
structure Token where
  start : ℕ
  len : ℕ
  sigil : Char
  name : Text
  default : Option Text
deriving DecidableEq, Repr

/-- `char::is_alphanumeric`: exact on ASCII; on the rest the Unicode tables of Rust's standard
library decide, and `unicode` stands for them. -/
def isAlphanumeric (unicode : Char → Bool) (c : Char) : Bool :=
  if c.toNat < 128 then c.isAlphanum else unicode c

section reader

variable (unicode : Char → Bool)

/-- `is_name_char`: whether `c` continues an unbraced name. -/
def isNameChar (c : Char) : Bool := isAlphanumeric unicode c || c == '_'

/-! ### One reference -/

/-- The error prefix of `parse_token`'s `fail`. -/
def fail (sigil : Char) (problem : String) : Error :=
  let kind := if sigil = '$' then "environment" else "config"
  s!"invalid {kind} variable reference: {problem}"

/-- The first position from `i` on whose character ends an unbraced name. -/
def nameEnd (i : ℕ) : Text → ℕ
  | [] => i
  | c :: rest => if !isNameChar unicode c then i else nameEnd (i + 1) rest

/-- What the braced-name loop leaves: the name read, the position it stopped at with the suffix
from there, and its two flags. -/
structure NameRead where
  name : Text
  i : ℕ
  rest : Text
  closed : Bool
  hasDefault : Bool

/-- The braced-name loop: up to a closing brace or, for `$`, a `:`. -/
def readName (sigil : Char) (i : ℕ) (name : Text) : Text → NameRead
  | [] => ⟨name, i, [], false, false⟩
  | c :: rest =>
      if c = '}' then ⟨name, i, c :: rest, true, false⟩
      else if c = ':' ∧ sigil = '$' then ⟨name, i, c :: rest, false, true⟩
      else readName sigil (i + 1) (name ++ [c]) rest

/-- The default loop: up to the first closing brace that no `\` escapes; the value is the
default, the position the loop stopped at and whether it was closed. -/
def readDefault (sigil : Char) (i : ℕ) (default : Text) : Text → Except Error (Text × ℕ × Bool)
  | [] => .ok (default, i, false)
  | '}' :: _ => .ok (default, i, true)
  | ['\\'] =>
      .error (fail sigil
        s!"'\\' at column {i + 1} must be immediately followed by a character to escape")
  | '\\' :: escaped :: rest => readDefault sigil (i + 2) (default ++ [escaped]) rest
  | c :: rest => readDefault sigil (i + 1) (default ++ [c]) rest

/-- What follows both loops of a braced reference: it must be closed and have a name. -/
def finishBraced (start : ℕ) (sigil : Char) (chars : Text) (name : Text) (i : ℕ) (closed : Bool)
    (default : Option Text) : Except Error Token :=
  if !closed then
    .error (fail sigil s!"'\x7b' at column {start + 2} must be followed by a closing '\x7d'")
  else if name.isEmpty then
    let written := String.ofList (printable (chars.take (i + 1 - start)))
    .error (fail sigil s!"'{written}' at column {start + 1} does not contain a variable name")
  else
    .ok { start := start, len := i + 1 - start, sigil := sigil, name := name, default := default }

/-- `parse_token`: the reference whose sigil is at `start`, where `rest` is what follows the
sigil. -/
def parseToken (start : ℕ) (sigil : Char) (rest : Text) : Except Error Token :=
  match rest with
  | [] =>
      .error (fail sigil s!"'{sigil}' at column {start + 1} must be followed by a variable name")
  | after :: braced =>
      if after ≠ '{' then
        let stop := nameEnd unicode (start + 1) rest
        if stop = start + 1 then
          .error (fail sigil
            s!"'{sigil}' at column {start + 1} does not contain a variable name")
        else
          .ok { start := start, len := stop - start, sigil := sigil,
                name := rest.take (stop - (start + 1)), default := none }
      else
        let read := readName sigil (start + 2) [] braced
        if read.hasDefault then
          match read.rest with
          | _ :: '-' :: fromDefault =>
              match readDefault sigil (read.i + 2) [] fromDefault with
              | .error e => .error e
              | .ok (default, i, closed) =>
                  finishBraced start sigil (sigil :: rest) read.name i closed (some default)
          | _ =>
              .error (fail sigil
                s!"':' at column {read.i + 1} must be immediately followed by '-'")
        else finishBraced start sigil (sigil :: rest) read.name read.i read.closed none

theorem le_nameEnd (i : ℕ) (rest : Text) : i ≤ nameEnd unicode i rest := by
  induction rest generalizing i with
  | nil => exact le_rfl
  | cons c rest ih =>
      unfold nameEnd
      split_ifs
      · exact le_rfl
      · exact le_trans (Nat.le_succ i) (ih (i + 1))

theorem le_readName_i (sigil : Char) (i : ℕ) (name rest : Text) :
    i ≤ (readName sigil i name rest).i := by
  induction rest generalizing i name with
  | nil => exact le_rfl
  | cons c rest ih =>
      unfold readName
      split_ifs
      · exact le_rfl
      · exact le_rfl
      · exact le_trans (Nat.le_succ i) (ih (i + 1) _)

theorem le_readDefault {sigil : Char} {i j : ℕ} {default value : Text} {closed : Bool} {rest : Text}
    (h : readDefault sigil i default rest = .ok (value, j, closed)) : i ≤ j := by
  induction i, default, rest using readDefault.induct with
  | case1 i default =>
      simp only [readDefault, Except.ok.injEq, Prod.mk.injEq] at h
      omega
  | case2 i default rest =>
      simp only [readDefault, Except.ok.injEq, Prod.mk.injEq] at h
      omega
  | case3 i default => simp [readDefault] at h
  | case4 i default escaped rest ih =>
      rw [readDefault] at h
      have := ih h
      omega
  | case5 i default c rest h1 h2 h3 ih =>
      rw [readDefault] at h
      · have := ih h
        omega
      all_goals assumption

theorem finishBraced_len {start i : ℕ} {sigil : Char} {chars name : Text} {closed : Bool}
    {default : Option Text} {token : Token}
    (h : finishBraced start sigil chars name i closed default = .ok token) :
    token.len = i + 1 - start := by
  unfold finishBraced at h
  split_ifs at h
  obtain rfl := Except.ok.inj h
  rfl

/-- A reference spans at least its sigil, so the walk always moves on. -/
theorem parseToken_len_pos {start : ℕ} {sigil : Char} {rest : Text} {token : Token}
    (h : parseToken unicode start sigil rest = .ok token) : 0 < token.len := by
  unfold parseToken at h
  split at h
  · cases h
  · rename_i after braced
    split_ifs at h with hb
    · dsimp only at h
      split_ifs at h
      obtain rfl := Except.ok.inj h
      have := le_nameEnd unicode (start + 1) (after :: braced)
      dsimp only
      omega
    · have hi := le_readName_i sigil (start + 2) [] braced
      dsimp only at h
      split_ifs at h with hd
      · split at h
        · split at h
          · cases h
          · rename_i hread
            have hj := le_readDefault hread
            have := finishBraced_len h
            omega
        · cases h
      · have := finishBraced_len h
        omega

/-! ### The walk -/

variable {σ : Type}

/-- The loop of `scan` from position `i` on, with `result` written so far. -/
def scanFrom (onToken : Token → σ → Except Error Text × σ) (i : ℕ) (result : Text)
    (chars : Text) (s : σ) : Except Error Text × σ :=
  match chars with
  | [] => (.ok result, s)
  | ['\\'] =>
      (.error s!"invalid escape sequence: '\\' at column {i + 1} must be immediately followed by a character to escape", s)
  | '\\' :: escaped :: rest => scanFrom onToken (i + 2) (result ++ [escaped]) rest s
  | c :: rest =>
      if c = '$' ∨ c = '<' then
        match _h : parseToken unicode i c rest with
        | .error e => (.error e, s)
        | .ok token =>
            match onToken token s with
            | (.error e, s') => (.error e, s')
            | (.ok text, s') =>
                scanFrom onToken (i + token.len) (result ++ text) ((c :: rest).drop token.len) s'
      else scanFrom onToken (i + 1) (result ++ [c]) rest s
termination_by chars.length
decreasing_by
  · simp
  · have := parseToken_len_pos unicode _h
    simp only [List.length_drop, List.length_cons]
    omega
  · simp

/-- `scan`: the walk from the start of `input`. -/
def scan (input : Text) (onToken : Token → σ → Except Error Text × σ) (s : σ) :
    Except Error Text × σ :=
  scanFrom unicode onToken 0 [] input s

/-! ### The readers -/

/-- `resolve`: the value of one reference.  `hostEnv` looks up a host environment variable;
`configVars` maps every declared config variable to its value, if it has one. -/
def resolve (sigil : Char) (name : Text) (default : Option Text) (hostEnv : Text → Option Text)
    (configVars : Text → Option (Option Text)) : Except Error Text :=
  let shown := String.ofList (printable name)
  if sigil = '$' then
    match hostEnv name with
    | some value => .ok value
    | none =>
        match default with
        | some default => .ok default
        | none =>
            .error s!"Host environment variable '{shown}' is not set, and no default was given (e.g. '$\x7b{shown}:-default\x7d')"
  else
    match configVars name with
    | none => .error s!"Config variable '{shown}' is not declared in 'config_variables'"
    | some none =>
        .error s!"Config variable '{shown}' has no value: no --config-var/--config-vars-file override was given, and it has no 'default' in 'config_variables'"
    | some (some value) => .ok value

/-- `interpolate`: the input with every reference replaced by its value. -/
def interpolate (input : Text) (hostEnv : Text → Option Text)
    (configVars : Text → Option (Option Text)) : Except Error Text :=
  (scan unicode input
    (fun token (_ : Unit) =>
      (resolve token.sigil token.name token.default hostEnv configVars, ())) ()).1

/-- `contains_expression`: whether the input is well formed and holds a reference. -/
def containsExpression (input : Text) : Bool :=
  match scan unicode input (fun _ _ => (.ok [], true)) false with
  | (wellFormed, found) => found && wellFormed.isOk

/-- `check_syntax`: what `interpolate` would refuse whatever its variables held. -/
def checkSyntax (input : Text) : Except Error Unit :=
  (scan unicode input (fun _ (_ : Unit) => (.ok [], ())) ()).1.map fun _ => ()

/-- `references`: every reference of the input, in order. -/
def references (input : Text) : Except Error (List Token) :=
  match scan unicode input (fun token found => (.ok [], found ++ [token])) [] with
  | (.error e, _) => .error e
  | (.ok _, found) => .ok found

end reader

end Ratect.Expressions
