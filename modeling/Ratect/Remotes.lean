import Ratect.IncludeTrust

/-! # How remotes are shown

`Remote` (`git_include.rs`) is shown without what may be its credentials and with its control
characters escaped, and `named_include` (`main.rs`) adds the start of the cache key to an entry
whose remote is not shown in full.  What a remote shows does not depend on its credentials.  Two
remotes that show alike both hide something or neither does (`hidesCredentials_of_display`), but
escaping shows a control character as a text that another remote may hold as written; a remote that
hides nothing is told apart from every other one exactly if it holds neither (`Unescaped`). -/

namespace Ratect

/-! ### Remotes -/

/-- `hides_credentials`: whether `redacted` makes a text of its own. -/
def Remote.hidesCredentials (remote : Remote) : Bool :=
  match splitScheme remote.url.toList with
  | none => false
  | some (_, rest) => '@' ∈ rest

/-- A character as `str`'s `Debug` writes it; `prints` says which characters outside ASCII the
Unicode tables of Rust's standard library call printable. -/
def debugChar (prints : Char → Bool) (c : Char) : Text :=
  if c = '"' ∨ c = '\\' then ['\\', c]
  else if isControl c then escapeDebug c
  else if c.toNat < 128 ∨ prints c = true then [c]
  else ['\\', 'u', '\x7b'] ++ Nat.toDigits 16 c.toNat ++ ['\x7d']

/-- A remote as `Debug` shows it. -/
def Remote.debug (prints : Char → Bool) (remote : Remote) : Text :=
  ['"'] ++ remote.redacted.flatMap (debugChar prints) ++ ['"']

/-- A remote of the form `scheme://userinfo@rest`. -/
def Remote.ofParts (scheme userinfo rest : Text) : Remote :=
  ⟨String.ofList (scheme ++ [':', '/', '/'] ++ userinfo ++ '@' :: rest)⟩

/-! ### Entries of the cache -/

/-- What of a `CachedInclude` names it. -/
structure CachedInclude where
  key : Text
  remote : Remote
  gitRef : Text

/-- `str::get(..n)`: the first bytes, unless there are fewer or a character goes on past them. -/
def firstBytes : ℕ → Text → Option Text
  | 0, _ => some []
  | _ + 1, [] => none
  | n + 1, c :: rest =>
      if c.utf8Size ≤ n + 1 then (firstBytes (n + 1 - c.utf8Size) rest).map (c :: ·) else none

/-- A cached include without its key. -/
def CachedInclude.named (entry : CachedInclude) : Text :=
  printable entry.remote.display.toList ++ " at ".toList ++ printable entry.gitRef

/-- What of the cache key is added. -/
def CachedInclude.shownKey (entry : CachedInclude) : Text :=
  " (key ".toList ++ printable ((firstBytes 12 entry.key).getD entry.key) ++ ")".toList

/-- `named_include`. -/
def namedInclude (entry : CachedInclude) : Text :=
  if entry.remote.hidesCredentials = false then entry.named else entry.named ++ entry.shownKey

/-! ### Schemes -/

theorem splitScheme_cons {c : Char} {t : Text}
    (h : ∀ rest, c = ':' → t = '/' :: '/' :: rest → False) :
    splitScheme (c :: t) = (splitScheme t).map fun parts => (c :: parts.1, parts.2) := by
  rw [splitScheme]
  exact h

/-- The first `://` stays where it is, whatever follows. -/
theorem splitScheme_append {t head rest : Text} (h : splitScheme t = some (head, rest))
    (after : Text) : splitScheme (t ++ after) = some (head, rest ++ after) := by
  induction t using splitScheme.induct generalizing head with
  | case1 rest' =>
      cases h
      rfl
  | case2 c t hscheme ih =>
      rw [splitScheme_cons hscheme] at h
      obtain ⟨⟨head', rest'⟩, hsplit, heq⟩ := Option.map_eq_some_iff.mp h
      cases heq
      -- two characters are there already, so what follows does not make them slashes
      have hlater : ∀ rest, c = ':' → t ++ after = '/' :: '/' :: rest → False := by
        intro rest hc heq
        match t, hsplit with
        | x :: y :: t', _ =>
            rw [List.cons_append, List.cons_append] at heq
            obtain ⟨hx, heq⟩ := List.cons.inj heq
            obtain ⟨hy, -⟩ := List.cons.inj heq
            exact hscheme t' hc (by rw [hx, hy])
      rw [List.cons_append, splitScheme_cons hlater, ih hsplit]
      rfl
  | case3 => cases h

/-- A text with `://` in it is split. -/
theorem exists_splitScheme (before : Text) :
    ∃ head rest, splitScheme (before ++ [':', '/', '/']) = some (head, rest) := by
  induction before with
  | nil => exact ⟨[':', '/', '/'], [], rfl⟩
  | cons c before ih =>
      by_cases h : ∃ rest, c = ':' ∧ before ++ [':', '/', '/'] = '/' :: '/' :: rest
      · obtain ⟨rest, rfl, hslashes⟩ := h
        rw [List.cons_append, hslashes]
        exact ⟨_, _, rfl⟩
      · obtain ⟨head, rest, hsplit⟩ := ih
        rw [List.cons_append, splitScheme_cons (fun rest hc heq => h ⟨rest, hc, heq⟩), hsplit]
        exact ⟨_, _, rfl⟩

theorem splitScheme_eq_some {t head rest : Text} (h : splitScheme t = some (head, rest)) :
    ∃ before, head = before ++ [':', '/', '/'] ∧ t = head ++ rest := by
  induction t using splitScheme.induct generalizing head with
  | case1 rest' =>
      cases h
      exact ⟨[], rfl, rfl⟩
  | case2 c t hscheme ih =>
      rw [splitScheme_cons hscheme] at h
      obtain ⟨⟨head', rest'⟩, hsplit, heq⟩ := Option.map_eq_some_iff.mp h
      cases heq
      obtain ⟨before, rfl, ht⟩ := ih hsplit
      exact ⟨c :: before, rfl, congrArg (c :: ·) ht⟩
  | case3 => cases h

/-- What may hold credentials: an `@` somewhere after a `://`. -/
def HoldsUserinfo (t : Text) : Prop :=
  ∃ before between after, t = before ++ [':', '/', '/'] ++ between ++ '@' :: after

theorem hidesCredentials_iff {remote : Remote} :
    remote.hidesCredentials = true ↔ HoldsUserinfo remote.url.toList := by
  unfold Remote.hidesCredentials HoldsUserinfo
  constructor
  · intro h
    split at h
    · cases h
    · next head rest hsplit =>
        obtain ⟨before, hhead, ht⟩ := splitScheme_eq_some hsplit
        obtain ⟨between, after, hrest⟩ := List.append_of_mem (of_decide_eq_true h)
        exact ⟨before, between, after, by rw [ht, hhead, hrest, ← List.append_assoc]⟩
  · rintro ⟨before, between, after, ht⟩
    obtain ⟨head, rest, hsplit⟩ := exists_splitScheme before
    rw [ht, List.append_assoc, splitScheme_append hsplit]
    simp

/-- What is shown of a text that holds an `@` after its first `://`. -/
theorem redacted_eq {remote : Remote} {head rest after : Text}
    (hsplit : splitScheme remote.url.toList = some (head, rest)) {between : Text}
    (hrest : rest = between ++ '@' :: after) (hafter : '@' ∉ after) :
    remote.redacted = head ++ ['*', '*', '*', '@'] ++ after := by
  have hmem : '@' ∈ rest := by rw [hrest]; simp
  have hlast : (rest.reverse.takeWhile (· ≠ '@')).reverse = after := by
    rw [hrest, List.reverse_append, List.reverse_cons, List.append_assoc,
      List.takeWhile_append_of_pos]
    · simp
    · intro c hc
      rw [List.mem_reverse] at hc
      exact decide_eq_true fun h => hafter (h ▸ hc)
  unfold Remote.redacted
  rw [hsplit]
  dsimp only
  rw [if_pos hmem, hlast]

theorem redacted_of_not_hides {remote : Remote} (h : remote.hidesCredentials = false) :
    remote.redacted = remote.url.toList := by
  unfold Remote.hidesCredentials at h
  unfold Remote.redacted
  split
  · rfl
  · next head rest hsplit =>
      rw [hsplit] at h
      rw [if_neg (of_decide_eq_false h)]

/-- Every text that holds an `@` holds a last one. -/
theorem exists_last_at {t : Text} (h : '@' ∈ t) :
    ∃ between after, t = between ++ '@' :: after ∧ '@' ∉ after := by
  obtain ⟨before, after, ht, hbefore⟩ := List.eq_append_cons_of_mem (List.mem_reverse.mpr h)
  refine ⟨after.reverse, before.reverse, ?_, fun hmem => hbefore (List.mem_reverse.mp hmem)⟩
  rw [← List.reverse_reverse t, ht, List.reverse_append, List.reverse_cons, List.append_assoc]
  rfl

/-- What is shown holds an `@` after a `://` if the remote does. -/
theorem holdsUserinfo_redacted (remote : Remote) :
    HoldsUserinfo remote.redacted ↔ remote.hidesCredentials = true := by
  constructor
  · intro h
    by_contra hhides
    rw [redacted_of_not_hides (Bool.eq_false_iff.mpr hhides)] at h
    exact hhides (hidesCredentials_iff.mpr h)
  · intro h
    unfold Remote.hidesCredentials at h
    split at h
    · cases h
    · next head rest hsplit =>
        obtain ⟨between, after, hrest, hafter⟩ := exists_last_at (of_decide_eq_true h)
        obtain ⟨before, hhead, -⟩ := splitScheme_eq_some hsplit
        rw [redacted_eq hsplit hrest hafter, hhead]
        exact ⟨before, ['*', '*', '*'], after, by simp⟩

/-! ### Escapes -/

/-- The characters that escapes are made of. -/
def escapeChars : Text :=
  ['\\', 't', 'r', 'n', 'u', '\x7b', '\x7d', '0', '1', '2', '3', '4', '5', '6', '7', '8', '9', 'a',
    'b', 'c', 'd', 'e', 'f']

theorem escapeDebug_chars {c : Char} (h : isControl c = true) :
    2 ≤ (escapeDebug c).length ∧ ∀ e ∈ escapeDebug c, e ∈ escapeChars := by
  have hall : (List.range 160).all
      (fun n => !isControl (Char.ofNat n) || (decide (2 ≤ (escapeDebug (Char.ofNat n)).length)
      && (escapeDebug (Char.ofNat n)).all (escapeChars.contains ·))) = true := by
    decide +kernel
  have hlt : c.toNat < 160 := by
    simp only [isControl, Bool.or_eq_true, Bool.and_eq_true, decide_eq_true_eq] at h
    omega
  have hc := List.all_eq_true.mp hall c.toNat (List.mem_range.mpr hlt)
  rw [Char.ofNat_toNat, h, Bool.not_true, Bool.false_or, Bool.and_eq_true, decide_eq_true_eq,
    List.all_eq_true] at hc
  exact ⟨hc.1, fun e he => List.contains_iff_mem.mp (hc.2 e he)⟩

theorem isControl_escapeChars : ∀ e ∈ escapeChars, isControl e = false := by
  have hall : escapeChars.all (fun e => !isControl e) = true := rfl
  simpa using hall

/-- No escape has a delimiter in it. -/
theorem delimiter_plain : ∀ x ∈ [':', '/', '@'], x ∉ escapeChars ∧ isControl x = false := by
  have hall : [':', '/', '@'].all (fun x => !escapeChars.contains x && !isControl x) = true := rfl
  simpa using hall

@[simp]
theorem printable_nil : printable [] = [] := rfl

theorem printable_append (s t : Text) : printable (s ++ t) = printable s ++ printable t :=
  List.flatMap_append

theorem printable_cons_control {c : Char} (h : isControl c = true) (t : Text) :
    printable (c :: t) = escapeDebug c ++ printable t := by
  unfold printable escapeControls
  rw [List.flatMap_cons, if_pos (by rw [h]; rfl)]

theorem printable_cons_plain {c : Char} (h : isControl c = false) (t : Text) :
    printable (c :: t) = c :: printable t := by
  unfold printable escapeControls
  rw [List.flatMap_cons, h]
  rfl

/-- A text without control characters is shown as it is. -/
theorem printable_eq_self {t : Text} (h : ∀ c ∈ t, isControl c = false) : printable t = t := by
  induction t with
  | nil => rfl
  | cons c t ih =>
      rw [printable_cons_plain (h c List.mem_cons_self), ih fun d hd =>
        h d (List.mem_cons_of_mem c hd)]

theorem printable_escapeDebug {c : Char} (h : isControl c = true) :
    printable (escapeDebug c) = escapeDebug c :=
  printable_eq_self fun e he => isControl_escapeChars e ((escapeDebug_chars h).2 e he)

theorem isControl_printable (t : Text) : ∀ c ∈ printable t, isControl c = false := by
  induction t with
  | nil => simp
  | cons c t ih =>
      intro d hd
      cases hc : isControl c with
      | true =>
          rw [printable_cons_control hc, List.mem_append] at hd
          exact hd.elim (fun he => isControl_escapeChars d ((escapeDebug_chars hc).2 d he)) (ih d)
      | false =>
          rw [printable_cons_plain hc, List.mem_cons] at hd
          exact hd.elim (fun he => he ▸ hc) (ih d)

/-- A character that no escape is made of is shown where it stands. -/
theorem printable_eq_append_cons {x : Char} (hx : x ∉ escapeChars) {t after : Text} (before : Text)
    (h : printable t = before ++ x :: after) :
    ∃ before' after',
      t = before' ++ x :: after' ∧ printable before' = before ∧ printable after' = after := by
  induction t generalizing before with
  | nil => exact absurd h.symm (by simp)
  | cons c t ih =>
      cases hc : isControl c with
      | true =>
          rw [printable_cons_control hc] at h
          -- the escape ends before the character
          rcases List.append_eq_append_iff.mp h with ⟨more, hbefore, hrest⟩ | ⟨more, hescape, hrest⟩
          · obtain ⟨before', after', ht, hb, ha⟩ := ih _ hrest
            exact ⟨c :: before', after', by
              rw [ht]; rfl, by rw [printable_cons_control hc, hb, hbefore], ha⟩
          · cases more with
            | nil =>
                rw [List.append_nil] at hescape
                obtain ⟨before', after', ht, hb, ha⟩ := ih [] hrest.symm
                exact ⟨c :: before', after', by
                  rw [ht]; rfl, by rw [printable_cons_control hc, hb, hescape,
                  List.append_nil], ha⟩
            | cons e more =>
                obtain ⟨rfl, -⟩ := List.cons.inj hrest
                exact absurd ((escapeDebug_chars hc).2 x (by rw [hescape]; simp)) hx
      | false =>
          rw [printable_cons_plain hc] at h
          cases before with
          | nil =>
              obtain ⟨rfl, hrest⟩ := List.cons.inj h
              exact ⟨[], t, rfl, rfl, hrest⟩
          | cons d before =>
              obtain ⟨rfl, hrest⟩ := List.cons.inj h
              obtain ⟨before', after', ht, hb, ha⟩ := ih _ hrest
              exact ⟨c :: before', after', by rw [ht]; rfl, by rw [printable_cons_plain hc, hb], ha⟩

theorem printable_eq_nil {t : Text} (h : printable t = []) : t = [] := by
  cases t with
  | nil => rfl
  | cons c t =>
      cases hc : isControl c with
      | true =>
          have hlength := (escapeDebug_chars hc).1
          rw [printable_cons_control hc] at h
          rw [(List.append_eq_nil_iff.mp h).1] at hlength
          cases hlength
      | false =>
          rw [printable_cons_plain hc] at h
          cases h

/-- Escaping neither adds nor takes away an `@` after a `://`. -/
theorem holdsUserinfo_printable (t : Text) : HoldsUserinfo (printable t) ↔ HoldsUserinfo t := by
  constructor
  · rintro ⟨before, between, after, h⟩
    rw [List.append_assoc, List.append_assoc] at h
    obtain ⟨a, t₁, rfl, -, h⟩ := printable_eq_append_cons (delimiter_plain ':' (by simp)).1 _ h
    obtain ⟨a₁, t₂, rfl, ha₁, h⟩ := printable_eq_append_cons (delimiter_plain '/' (by simp)).1 [] h
    obtain ⟨a₂, t₃, rfl, ha₂, h⟩ := printable_eq_append_cons (delimiter_plain '/' (by simp)).1 [] h
    obtain ⟨b, c, rfl, -, -⟩ := printable_eq_append_cons (delimiter_plain '@' (by simp)).1 _ h
    rw [printable_eq_nil ha₁, printable_eq_nil ha₂]
    exact ⟨a, b, c, by simp⟩
  · rintro ⟨before, between, after, rfl⟩
    refine ⟨printable before, printable between, printable after, ?_⟩
    have hslash : printable [':', '/', '/'] = [':', '/', '/'] := rfl
    rw [printable_append, printable_append, printable_append,
      printable_cons_plain (delimiter_plain '@' (by simp)).2, hslash]

/-- What holds neither a control character nor what one is shown as. -/
def Unescaped (t : Text) : Prop := ∀ c, isControl c = true → c ∉ t ∧ ¬ escapeDebug c <:+: t

/-- A text that is shown like no other. -/
theorem printable_unique (t : Text) :
    (∀ t', printable t' = printable t → t' = t) ↔ Unescaped t := by
  -- a control character and its escape are shown alike
  have halike : ∀ c, isControl c = true → ∀ before after,
      printable (before ++ c :: after) = printable (before ++ escapeDebug c ++ after) := by
    intro c hc before after
    rw [printable_append, printable_append, printable_append, printable_cons_control hc,
      printable_escapeDebug hc, List.append_assoc]
  have hdiffer : ∀ c, isControl c = true → ∀ before after,
      before ++ c :: after ≠ before ++ escapeDebug c ++ after := by
    intro c hc before after heq
    have hlength := congrArg List.length heq
    have hescape := (escapeDebug_chars hc).1
    simp only [List.length_append, List.length_cons] at hlength
    omega
  constructor
  · intro h c hc
    constructor
    · intro hmem
      obtain ⟨before, after, rfl⟩ := List.append_of_mem hmem
      exact hdiffer c hc before after (h _ (halike c hc before after).symm).symm
    · rintro ⟨before, after, rfl⟩
      exact hdiffer c hc before after (h _ (halike c hc before after))
  · intro h t' heq
    have hcontrol : ∀ c ∈ t, isControl c = false := by
      intro c hmem
      by_contra hc
      exact (h c (Bool.not_eq_false _ ▸ hc)).1 hmem
    rw [printable_eq_self hcontrol] at heq
    have hcontrol' : ∀ c ∈ t', isControl c = false := by
      intro c hmem
      by_contra hc
      have hc : isControl c = true := Bool.not_eq_false _ ▸ hc
      obtain ⟨before, after, rfl⟩ := List.append_of_mem hmem
      refine (h c hc).2 ⟨printable before, printable after, ?_⟩
      rw [← heq, printable_append, printable_cons_control hc, List.append_assoc]
    rw [← heq, printable_eq_self hcontrol']

/-! ### Remotes told apart -/

theorem display_eq_iff {remote other : Remote} :
    other.display = remote.display ↔ printable other.redacted = printable remote.redacted := by
  unfold Remote.display
  exact String.ofList_inj

theorem remote_ext {remote other : Remote}
    (h : other.url.toList = remote.url.toList) : other = remote := by
  obtain ⟨url⟩ := other
  obtain ⟨url'⟩ := remote
  exact congrArg Remote.mk (String.toList_injective h)

/-- What is written as a remote that hides nothing is shown, or as one whose control characters are
written out, hides nothing either. -/
theorem redacted_of_printable {remote : Remote} (h : remote.hidesCredentials = false) {t : Text}
    (heq : printable t = printable remote.url.toList) :
    (Remote.mk (String.ofList t)).redacted = t := by
  have hhides : (Remote.mk (String.ofList t)).hidesCredentials = false := by
    rw [Bool.eq_false_iff, Ne, hidesCredentials_iff,
      String.toList_ofList, ← holdsUserinfo_printable, heq,
      holdsUserinfo_printable, ← hidesCredentials_iff, h]
    decide
  rw [redacted_of_not_hides hhides, String.toList_ofList]

/-- Of two remotes that show alike both hide something, or neither does. -/
theorem hidesCredentials_of_display {remote other : Remote} (h : other.display = remote.display) :
    other.hidesCredentials = remote.hidesCredentials := by
  rw [Bool.eq_iff_iff, ← holdsUserinfo_redacted, ← holdsUserinfo_redacted, ←
    holdsUserinfo_printable,
    ← holdsUserinfo_printable remote.redacted, display_eq_iff.mp h]

/-- Any other remote that shows alike has something hidden, as this one has. -/
def ToldApart (remote : Remote) : Prop :=
  ∀ other : Remote, other ≠ remote → other.display = remote.display →
    remote.hidesCredentials = true ∧ other.hidesCredentials = true

theorem toldApart_iff (remote : Remote) :
    ToldApart remote ↔ remote.hidesCredentials = true ∨ Unescaped remote.url.toList := by
  rw [← printable_unique]
  constructor
  · intro htold
    by_contra hneither
    obtain ⟨hhides, hunique⟩ := not_or.mp hneither
    obtain ⟨t, heq, hne⟩ : ∃ t,
      printable t = printable remote.url.toList ∧ t ≠ remote.url.toList := by
      simpa using hunique
    have hhides := Bool.eq_false_iff.mpr hhides
    have hshown := redacted_of_printable hhides heq
    have hdisplay : (Remote.mk (String.ofList t)).display = remote.display := by
      rw [display_eq_iff, hshown, redacted_of_not_hides hhides, heq]
    have hother : Remote.mk (String.ofList t) ≠ remote := by
      rintro rfl
      exact hne (String.toList_ofList).symm
    rw [(htold _ hother hdisplay).1] at hhides
    cases hhides
  · intro h other hother hdisplay
    cases hhides : remote.hidesCredentials with
    | true => exact ⟨rfl, (hidesCredentials_of_display hdisplay).trans hhides⟩
    | false =>
        have hhides' := (hidesCredentials_of_display hdisplay).trans hhides
        rw [display_eq_iff, redacted_of_not_hides hhides', redacted_of_not_hides hhides] at hdisplay
        have hsame := h.resolve_left (by rw [hhides]; decide) _ hdisplay
        exact absurd (remote_ext hsame) hother

/-! ### What is shown is shown as it is -/

/-- What stands before and at the first `://` holds no other. -/
theorem splitScheme_head {t head rest : Text} (h : splitScheme t = some (head, rest)) :
    splitScheme head = some (head, []) := by
  induction t using splitScheme.induct generalizing head with
  | case1 rest' =>
      cases h
      rfl
  | case2 c t hscheme ih =>
      rw [splitScheme_cons hscheme] at h
      obtain ⟨⟨head', rest'⟩, hsplit, heq⟩ := Option.map_eq_some_iff.mp h
      cases heq
      have hhead : ∀ more, c = ':' → head' = '/' :: '/' :: more → False := by
        intro more hc heq
        obtain ⟨-, -, ht⟩ := splitScheme_eq_some hsplit
        exact hscheme (more ++ rest') hc (by rw [ht, heq]; rfl)
      dsimp only at hhead ⊢
      rw [splitScheme_cons hhead, ih hsplit]
      rfl
  | case3 => cases h

theorem splitScheme_append_of_not_mem {s : Text} (h : ':' ∉ s) (t : Text) :
    splitScheme (s ++ t) = (splitScheme t).map fun parts => (s ++ parts.1, parts.2) := by
  induction s with
  | nil => simp
  | cons c s ih =>
      rw [List.cons_append, splitScheme_cons (fun _ hc _ => h (hc ▸ List.mem_cons_self)),
        ih (fun hmem => h (List.mem_cons_of_mem c hmem)), Option.map_map]
      rfl

/-- Escaping leaves the first `://` where it is. -/
theorem splitScheme_printable (t : Text) :
    splitScheme (printable t) =
      (splitScheme t).map fun parts => (printable parts.1, printable parts.2) := by
  induction t using splitScheme.induct with
  | case1 rest =>
      rw [printable_cons_plain (delimiter_plain ':' (by simp)).2,
        printable_cons_plain (delimiter_plain '/' (by simp)).2,
          printable_cons_plain (delimiter_plain '/' (by simp)).2]
      rfl
  | case2 c t hscheme ih =>
      rw [splitScheme_cons hscheme]
      cases hc : isControl c with
      | true =>
          have hcolon : ':' ∉ escapeDebug c :=
            fun hmem => (delimiter_plain ':' (by simp)).1 ((escapeDebug_chars hc).2 ':' hmem)
          rw [printable_cons_control hc, splitScheme_append_of_not_mem hcolon, ih,
            Option.map_map, Option.map_map]
          refine congrArg (Option.map · _) (funext fun parts => ?_)
          simp [printable_cons_control hc]
      | false =>
          have hlater : ∀ rest, c = ':' → printable t = '/' :: '/' :: rest → False := by
            intro rest hcolon h
            obtain ⟨a₁, t₁, rfl, ha₁, h⟩ :=
              printable_eq_append_cons (delimiter_plain '/' (by simp)).1 [] h
            obtain ⟨a₂, t₂, rfl, ha₂, -⟩ :=
              printable_eq_append_cons (delimiter_plain '/' (by simp)).1 [] h
            rw [printable_eq_nil ha₁, printable_eq_nil ha₂] at hscheme
            exact hscheme t₂ hcolon rfl
          rw [printable_cons_plain hc, splitScheme_cons hlater, ih, Option.map_map, Option.map_map]
          refine congrArg (Option.map · _) (funext fun parts => ?_)
          simp [printable_cons_plain hc]
  | case3 => rfl

/-- A remote that is written as another is shown is shown as it is. -/
theorem redacted_shown (remote : Remote) :
    (Remote.mk (String.ofList (printable remote.redacted))).redacted =
      printable remote.redacted := by
  cases hhides : remote.hidesCredentials with
  | false =>
      rw [redacted_of_not_hides hhides]
      exact redacted_of_printable hhides (printable_eq_self (isControl_printable _))
  | true =>
      unfold Remote.hidesCredentials at hhides
      split at hhides
      · cases hhides
      · next head rest hsplit =>
          obtain ⟨between, after, hrest, hafter⟩ := exists_last_at (of_decide_eq_true hhides)
          have hstars : printable ['*', '*', '*', '@'] = ['*', '*', '*', '@'] := rfl
          have hat : '@' ∉ printable after := by
            intro hmem
            obtain ⟨before, more, hprinted⟩ := List.append_of_mem hmem
            obtain ⟨before', more', hafter', -, -⟩ :=
              printable_eq_append_cons (delimiter_plain '@' (by simp)).1 _ hprinted
            exact hafter (by rw [hafter']; simp)
          have hhead : splitScheme (printable head) = some (printable head, []) := by
            rw [splitScheme_printable, splitScheme_head hsplit]
            rfl
          have hwhole : splitScheme (Remote.mk (String.ofList
              (printable head ++ ['*', '*', '*', '@'] ++ printable after))).url.toList =
              some (printable head, ['*', '*', '*'] ++ '@' :: printable after) := by
            rw [String.toList_ofList, List.append_assoc]
            exact splitScheme_append hhead _
          rw [redacted_eq hsplit hrest hafter, printable_append, printable_append, hstars]
          exact redacted_eq hwhole rfl hat

/-! ### Entries told apart -/

namespace CachedInclude

theorem named_eq (entry : CachedInclude) :
    entry.named = printable entry.remote.redacted ++ " at ".toList ++ printable entry.gitRef := by
  unfold named Remote.display
  rw [String.toList_ofList, printable_eq_self (isControl_printable entry.remote.redacted)]

theorem isControl_named (entry : CachedInclude) : ∀ c ∈ entry.named, isControl c = false := by
  have hat : ∀ c ∈ " at ".toList, isControl c = false := by
    have hall : " at ".toList.all (fun c => !isControl c) = true := rfl
    simpa using hall
  intro c hc
  rw [named_eq, List.mem_append, List.mem_append] at hc
  rcases hc with (hc | hc) | hc
  · exact isControl_printable _ c hc
  · exact hat c hc
  · exact isControl_printable _ c hc

/-- Any other entry that is named alike is, like this one, named with the start of its key. -/
def ToldApart (entry : CachedInclude) : Prop :=
  ∀ other : CachedInclude, (other.remote ≠ entry.remote ∨ other.gitRef ≠ entry.gitRef) →
    other.named = entry.named →
    namedInclude entry = entry.named ++ entry.shownKey ∧
      namedInclude other = other.named ++ other.shownKey

/-- However a name is read as a remote, ` at ` and a ref: where the entry's remote is not shown in
full, nor is the one that is read; and where it is, it is the only one that could be shown so, and
neither it nor the ref holds a control character or what one is shown as. -/
def ReadOneWay (entry : CachedInclude) : Prop :=
  (entry.remote.hidesCredentials = true ∧ ∀ a b,
    entry.named = a ++ " at ".toList ++ b → HoldsUserinfo a) ∨
    (entry.remote.hidesCredentials = false ∧ Unescaped entry.remote.url.toList ∧
      Unescaped entry.gitRef ∧
      ∀ a b, entry.named = a ++ " at ".toList ++ b → (Remote.mk (String.ofList a)).redacted = a →
        a = entry.remote.url.toList)

theorem namedInclude_keyed {entry : CachedInclude} :
    namedInclude entry = entry.named ++ entry.shownKey ↔ entry.remote.hidesCredentials = true := by
  unfold namedInclude
  cases h : entry.remote.hidesCredentials with
  | true => simp
  | false => simp [shownKey]

/-- The entry of a part of a name, by what it reads as. -/
def reading (a b : Text) : CachedInclude := ⟨[], ⟨String.ofList a⟩, b⟩

/-- A part that would be shown as it is, and the rest, are the name of an entry. -/
theorem named_reading {entry : CachedInclude} {a b : Text}
    (h : entry.named = a ++ " at ".toList ++ b)
    (hself : (Remote.mk (String.ofList a)).redacted = a) : (reading a b).named = entry.named := by
  have hcontrol := entry.isControl_named
  rw [h] at hcontrol
  rw [named_eq]
  change printable (Remote.mk (String.ofList a)).redacted ++ " at ".toList ++
    printable b = entry.named
  rw [hself, h, printable_eq_self fun c hc => hcontrol c (by simp [hc]),
    printable_eq_self fun c hc => hcontrol c (by simp [hc])]

theorem redacted_of_not_holds {a : Text} (h : ¬ HoldsUserinfo a) :
    (Remote.mk (String.ofList a)).redacted = a := by
  have hhides : (Remote.mk (String.ofList a)).hidesCredentials = false := by
    rw [Bool.eq_false_iff, Ne, hidesCredentials_iff, String.toList_ofList]
    exact h
  rw [redacted_of_not_hides hhides, String.toList_ofList]

theorem toldApart_iff_of_hides {entry : CachedInclude} (h : entry.remote.hidesCredentials = true) :
    entry.ToldApart ↔ ∀ a b, entry.named = a ++ " at ".toList ++ b → HoldsUserinfo a := by
  constructor
  · intro htold a b hsplit
    by_contra hholds
    have hnothides : (reading a b).remote.hidesCredentials ≠ true := by
      rw [Ne, hidesCredentials_iff]
      change ¬ HoldsUserinfo (String.ofList a).toList
      rw [String.toList_ofList]
      exact hholds
    have hother : (reading a b).remote ≠ entry.remote := fun heq => hnothides (heq ▸ h)
    have hkeyed :=
      (htold (reading a b) (Or.inl hother) (named_reading hsplit (redacted_of_not_holds hholds))).2
    exact hnothides (namedInclude_keyed.mp hkeyed)
  · intro hreads other _ hnamed
    have hholds := hreads _ _ (hnamed.symm.trans other.named_eq)
    rw [holdsUserinfo_printable, holdsUserinfo_redacted] at hholds
    exact ⟨namedInclude_keyed.mpr h, namedInclude_keyed.mpr hholds⟩

theorem toldApart_iff_of_not_hides {entry : CachedInclude}
    (h : entry.remote.hidesCredentials = false) :
    entry.ToldApart ↔ Unescaped entry.remote.url.toList ∧ Unescaped entry.gitRef ∧
      ∀ a b, entry.named = a ++ " at ".toList ++ b → (Remote.mk (String.ofList a)).redacted = a →
        a = entry.remote.url.toList := by
  have hredacted := redacted_of_not_hides h
  rw [← printable_unique, ← printable_unique]
  constructor
  · intro htold
    -- this entry is named without its key, so no other may be named alike
    have hnone : ∀ other : CachedInclude,
        (other.remote ≠ entry.remote ∨ other.gitRef ≠ entry.gitRef) →
        other.named ≠ entry.named := by
      intro other hother hnamed
      rw [namedInclude_keyed.mp (htold other hother hnamed).1] at h
      cases h
    have hremote : ∀ a b, (reading a b).remote = entry.remote → a = entry.remote.url.toList := by
      intro a b heq
      rw [← heq]
      exact (String.toList_ofList).symm
    refine ⟨fun t heq => ?_, fun t heq => ?_, fun a b hsplit hself => ?_⟩
    · by_contra hne
      refine hnone (reading t entry.gitRef) (Or.inl fun hsame => hne (hremote _ _ hsame)) ?_
      rw [named_eq, named_eq]
      change printable (Remote.mk (String.ofList t)).redacted ++ _ ++ printable entry.gitRef = _
      rw [redacted_of_printable h heq, heq, hredacted]
    · by_contra hne
      refine hnone ⟨[], entry.remote, t⟩ (Or.inr hne) ?_
      rw [named_eq, named_eq]
      exact congrArg _ heq
    · by_contra hne
      exact hnone (reading a b) (Or.inl fun hsame => hne (hremote _ _ hsame))
        (named_reading hsplit hself)
  · rintro ⟨hurl, href, hreads⟩ other hother hnamed
    have hshown := hreads _ _ (hnamed.symm.trans other.named_eq) (redacted_shown other.remote)
    have hhides : other.remote.hidesCredentials = false := by
      rw [Bool.eq_false_iff, Ne, ← holdsUserinfo_redacted, ← holdsUserinfo_printable,
        hshown, ← hidesCredentials_iff, h]
      decide
    rw [redacted_of_not_hides hhides] at hshown
    have hself : printable entry.remote.url.toList = entry.remote.url.toList := by
      rw [← hshown]
      exact printable_eq_self (isControl_printable _)
    have hsame := remote_ext (hurl _ (hshown.trans hself.symm))
    rw [named_eq, named_eq, hsame] at hnamed
    exact absurd (href _ (List.append_cancel_left hnamed))
      (hother.resolve_left (fun hne => hne hsame))

theorem toldApart_iff (entry : CachedInclude) : entry.ToldApart ↔ entry.ReadOneWay := by
  unfold ReadOneWay
  cases h : entry.remote.hidesCredentials with
  | true => simpa using toldApart_iff_of_hides h
  | false => simpa using toldApart_iff_of_not_hides h

end CachedInclude

/-! ### Credentials -/

/-- What a remote shows does not depend on what stands before its last `@`. -/
theorem redacted_ofParts (scheme : Text) {rest : Text} (hrest : '@' ∉ rest) :
    ∃ shown, ∀ userinfo, (Remote.ofParts scheme userinfo rest).redacted = shown := by
  obtain ⟨head, more, hsplit⟩ := exists_splitScheme scheme
  refine ⟨head ++ ['*', '*', '*', '@'] ++ rest, fun userinfo => ?_⟩
  have hwhole := splitScheme_append hsplit (userinfo ++ '@' :: rest)
  refine redacted_eq ?_ (List.append_assoc more userinfo _).symm hrest
  rw [Remote.ofParts, String.toList_ofList, List.append_assoc]
  exact hwhole

/-- Credentials are never shown.  A remote is told apart from every other one exactly if something
of it is hidden, or it holds neither a control character nor what one is shown as; and an entry is
told apart from every other one exactly if its name is read in one way. -/
theorem remotes_told_apart_iff (remote : Remote) (entry : CachedInclude) :
    (∀ scheme userinfo userinfo' rest : Text, '@' ∉ rest →
      (Remote.ofParts scheme userinfo rest).display =
        (Remote.ofParts scheme userinfo' rest).display ∧
      ∀ prints,
        (Remote.ofParts scheme userinfo rest).debug prints =
          (Remote.ofParts scheme userinfo' rest).debug prints) ∧
    (ToldApart remote ↔ remote.hidesCredentials = true ∨ Unescaped remote.url.toList) ∧
    (entry.ToldApart ↔ entry.ReadOneWay) := by
  refine ⟨?_, toldApart_iff remote, CachedInclude.toldApart_iff entry⟩
  intro scheme userinfo userinfo' rest hrest
  obtain ⟨shown, hshown⟩ := redacted_ofParts scheme hrest
  have heq := (hshown userinfo).trans (hshown userinfo').symm
  exact ⟨by rw [Remote.display, Remote.display, heq],
    fun prints => by rw [Remote.debug, Remote.debug, heq]⟩

/-- A directory whose name breaks a line, and one whose name holds a backslash and an `n`, show
alike in full, and so do their entries. -/
theorem escapes_not_told_apart :
    ¬ ((∀ remote other : Remote, remote ≠ other → remote.display = other.display →
      remote.hidesCredentials = true ∧ other.hidesCredentials = true) ∧
    ∀ entry other : CachedInclude, entry.remote ≠ other.remote → entry.named = other.named →
      namedInclude entry = entry.named ++ entry.shownKey ∧
        namedInclude other = other.named ++ other.shownKey) := by
  rintro ⟨h, -⟩
  have hboth :=
    h ⟨String.ofList ['/', 'a', '\n', 'b']⟩
      ⟨String.ofList ['/', 'a', '\\', 'n', 'b']⟩ (by decide +kernel)
    (by decide +kernel)
  exact absurd hboth.1 (by decide +kernel)

end Ratect
