import Ratect.CommandLine
import Ratect.ProjectLoad

/-! # The script of an external health check

`ExternalHealthCheck::command` writes a shell script between single quotes, with the container's
name, the path that is asked for and numbers in it.  None of what `expand_external_health_checks`
accepts there has a single quote, so the tokenizer reads the command as `-c` and the script
(`tokenize_command`).

Durations are displayed in seconds as an `f64` of three places (`threePlacesF64`). -/

namespace Ratect

/-! ### Seconds as a floating-point number -/

/-- To the nearest natural number, halves to the even one. -/
def roundHalfEven (x : ℚ) : ℕ :=
  let below := ⌊x⌋₊
  if x - below < 1 / 2 then below
  else if 1 / 2 < x - below then below + 1
  else if below % 2 = 0 then below else below + 1

/-- The `f64` nearest to a number that is not negative and in the range of normal numbers. -/
def nearestF64 (x : ℚ) : ℚ :=
  if x = 0 then 0
  else
    let unit : ℚ := 2 ^ (Int.log 2 x - 52)
    roundHalfEven (x / unit) * unit

/-- `as_secs_f64`, of a duration in nanoseconds. -/
def asSecsF64 (duration : ℕ) : ℚ :=
  nearestF64 (nearestF64 ((duration / 10 ^ 9 : ℕ) : ℚ) +
    nearestF64 ((duration % 10 ^ 9 : ℕ) / 10 ^ 9))

/-- `{:.3}` of the seconds. -/
def threePlacesF64 (duration : ℕ) : String :=
  let thousandths := roundHalfEven (asSecsF64 duration * 1000)
  let places := display (thousandths % 1000)
  String.ofList (display (thousandths / 1000) ++ '.' ::
    (List.replicate (3 - places.length) '0' ++ places))

/-! ### Texts without a single quote -/

/-- The text has no single quote. -/
def Quotable (s : String) : Prop := '\x27' ∉ s.toList

theorem Quotable.append {s t : String} (hs : Quotable s) (ht : Quotable t) : Quotable (s ++ t) := by
  unfold Quotable
  rw [String.toList_append, List.mem_append, not_or]
  exact ⟨hs, ht⟩

theorem not_quote_of_isDigit {t : Text} (h : ∀ c ∈ t, c.isDigit = true) : '\x27' ∉ t := by
  intro hquote
  have hdigit := h _ hquote
  revert hdigit
  decide

theorem not_quote_display (n : ℕ) : '\x27' ∉ display n :=
  not_quote_of_isDigit fun _ hc => display_isDigit hc

theorem quotable_nat (n : ℕ) : Quotable (toString n) := by
  have hdisplay : (toString n).toList = display n := by
    show (Nat.repr n).toList = _
    unfold Nat.repr display
    rw [String.toList_ofList]
  unfold Quotable
  rw [hdisplay]
  exact not_quote_display n

theorem quotable_threePlacesF64 (duration : ℕ) : Quotable (threePlacesF64 duration) := by
  unfold Quotable threePlacesF64
  dsimp only
  rw [String.toList_ofList]
  simp only [List.mem_append, List.mem_cons, not_or]
  refine ⟨not_quote_display _, by decide, ?_, not_quote_display _⟩
  intro hquote
  have hzero := List.eq_of_mem_replicate hquote
  revert hzero
  decide

theorem quotable_formatSeconds (duration : ℕ) :
    Quotable (formatSeconds threePlacesF64 duration) := by
  unfold formatSeconds
  split
  · exact quotable_nat _
  · split
    · show '\x27' ∉ "0.001".toList
      decide
    · exact quotable_threePlacesF64 _

/-- A container's name has none. -/
theorem quotable_of_isNameComponent {name : String}
    (h : isNameComponent name.toList = true) : Quotable name := by
  intro hquote
  have hchar := isNameComponent_chars h _ hquote
  revert hchar
  decide

/-- A path that is accepted has none. -/
theorem quotable_of_validate {container : String} {path : Text}
    (h : validateExternalHealthCheckPath container path = .ok ()) : '\x27' ∉ path := by
  obtain ⟨⟨⟩, -, h⟩ := Except.bind_eq_ok.mp h
  split at h
  · next hnone =>
      intro hquote
      have hbad := List.find?_eq_none.mp hnone _ hquote
      revert hbad
      decide
  · cases h

/-! ### The command -/

section command

variable {name : String} {check : Config.ExternalHealthCheck}

/-- What the check asks for has no single quote. -/
def Config.ExternalHealthCheckKind.Quotable : Config.ExternalHealthCheckKind → Prop
  | .http _ path _ => '\x27' ∉ path
  | .tcp _ => True

theorem append_ne_empty {s t : String} (h : s ≠ "") : s ++ t ≠ "" := by
  intro hnil
  have htext := congrArg String.toList hnil
  rw [String.toList_append] at htext
  exact h (String.toList_eq_nil_iff.mp (List.append_eq_nil_iff.mp htext).1)

/-- Around what is tried, and what is told when that has failed, stands the loop of the script. -/
theorem loop_eq {retries interval attempt failure : String} (hretries : Quotable retries)
    (hinterval : Quotable interval) (hattempt : Quotable attempt) (hfailure : Quotable failure) :
    ∃ script : String,
      "-c 'i=0; while [ \"$i\" -lt " ++ retries ++
        " ]; do if [ \"$i\" -gt 0 ]; then sleep " ++ interval ++
          "; fi; " ++ attempt ++ "; " ++ ("i=$((i+1)); done; " ++ failure ++ "; exit 1'") =
        "-c '" ++ script ++ "'" ∧ Quotable script ∧ script ≠ "" := by
  refine ⟨"i=0; while [ \"$i\" -lt " ++ retries ++
    " ]; do if [ \"$i\" -gt 0 ]; then sleep " ++ interval ++
    "; fi; " ++ attempt ++ "; " ++ ("i=$((i+1)); done; " ++ failure ++ "; exit 1"), ?_, ?_, ?_⟩
  · rw [show "-c 'i=0; while [ \"$i\" -lt " = "-c '" ++ "i=0; while [ \"$i\" -lt " from rfl,
      show "; exit 1'" = "; exit 1" ++ "'" from rfl]
    simp only [String.append_assoc]
  · have hopen : Quotable "i=0; while [ \"$i\" -lt " := by unfold Quotable; decide
    have hsleep : Quotable " ]; do if [ \"$i\" -gt 0 ]; then sleep " := by unfold Quotable; decide
    have hfi : Quotable "; fi; " := by unfold Quotable; decide
    have hnext : Quotable "; " := by unfold Quotable; decide
    have hdone : Quotable "i=$((i+1)); done; " := by unfold Quotable; decide
    have hexit : Quotable "; exit 1" := by unfold Quotable; decide
    exact ((((((hopen.append hretries).append hsleep).append hinterval).append hfi).append
      hattempt).append
      hnext).append ((hdone.append hfailure).append hexit)
  · repeat apply append_ne_empty
    decide

/-- The command is `-c` and a script in single quotes. -/
theorem command_eq (hname : Quotable name) (hkind : check.kind.Quotable) : ∃ script : String,
    check.command threePlacesF64 name = "-c '" ++ script ++ "'" ∧
      Quotable script ∧ script ≠ "" := by
  unfold Config.ExternalHealthCheck.command
  dsimp only
  cases hcheck : check.kind with
  | http port path expectedStatus =>
      rw [hcheck] at hkind
      have hpath : Quotable (String.ofList path) := by
        unfold Quotable
        rw [String.toList_ofList]
        exact hkind
      have hurl : Quotable ("http://" ++ name ++ ":" ++ toString port ++ String.ofList path) :=
        ((((show Quotable "http://" by unfold Quotable; decide).append hname).append
          (show Quotable ":" by unfold Quotable; decide)).append (quotable_nat port)).append hpath
      have hcurl : Quotable "code=$(curl -s -o /dev/null -w %\x7bhttp_code\x7d -m " := by
        unfold Quotable; decide
      have hquote : Quotable " \"" := by unfold Quotable; decide
      have hcompare : Quotable "\"); if [ \"$code\" = \"" := by unfold Quotable; decide
      have hthen : Quotable "\" ]; then exit 0; fi" := by unfold Quotable; decide
      have hlast : Quotable "echo \"last status $code from " := by unfold Quotable; decide
      have hafter : Quotable " after " := by unfold Quotable; decide
      have hwanted : Quotable " attempt(s), wanted " := by unfold Quotable; decide
      have hstderr : Quotable "\" >&2" := by unfold Quotable; decide
      refine loop_eq (quotable_nat _) (quotable_formatSeconds _) ?_ ?_
      · exact (hcurl.append (quotable_formatSeconds _)).append
          ((((hquote.append hurl).append hcompare).append (quotable_nat _)).append hthen)
      · exact (((((hlast.append hurl).append hafter).append (quotable_nat _)).append hwanted).append
          (quotable_nat _)).append hstderr
  | tcp port =>
      have hnc : Quotable "if nc -z -w " := by unfold Quotable; decide
      have hspace : Quotable " " := by unfold Quotable; decide
      have hthen : Quotable "; then exit 0; fi" := by unfold Quotable; decide
      have hno : Quotable "echo \"no TCP connection to " := by unfold Quotable; decide
      have hcolon : Quotable ":" := by unfold Quotable; decide
      have hafter : Quotable " after " := by unfold Quotable; decide
      have hstderr : Quotable " attempt(s)\" >&2" := by unfold Quotable; decide
      refine loop_eq (quotable_nat _) (quotable_formatSeconds _) ?_ ?_
      · exact (((((hnc.append (quotable_nat _)).append hspace).append hname).append hspace).append
          (quotable_nat _)).append hthen
      · exact (((((hno.append hname).append hcolon).append (quotable_nat _)).append hafter).append
          (quotable_nat _)).append hstderr

/-- What a container is checked for before its script is written leaves no single quote in it. -/
theorem quotable_of_check {container : Config.Container}
    (h : checkExternalHealthCheck name container check = .ok ()) :
    Quotable name ∧ check.kind.Quotable := by
  obtain ⟨⟨⟩, -, h⟩ := Except.bind_eq_ok.mp h
  obtain ⟨⟨⟩, -, h⟩ := Except.bind_eq_ok.mp h
  obtain ⟨⟨⟩, -, h⟩ := Except.bind_eq_ok.mp h
  obtain ⟨⟨⟩, hname, h⟩ := Except.bind_eq_ok.mp h
  refine ⟨quotable_of_isNameComponent (Except.ensure_eq_ok.mp hname), ?_⟩
  cases hkind : check.kind with
  | tcp port => trivial
  | http port path expectedStatus =>
      rw [hkind] at h
      obtain ⟨⟨⟩, hpath, -⟩ := Except.bind_eq_ok.mp h
      exact quotable_of_validate hpath

/-- The containers that an expansion generates scripts for were checked. -/
theorem checked_of_expand {threePlaces : ℕ → String} {config config' : Config}
    (h : expandExternalHealthChecks threePlaces config = .ok config')
    (hmem : (name, check) ∈ config.checked) :
    ∃ container, checkExternalHealthCheck name container check = .ok () := by
  obtain ⟨⟨⟩, hall, -⟩ := Except.bind_eq_ok.mp h
  obtain ⟨entry, hentry, hcheck⟩ := List.mem_filterMap.mp hmem
  obtain ⟨found, hfound, heq⟩ := Option.map_eq_some_iff.mp hcheck
  cases heq
  have hone := Except.forM_eq_ok.mp hall entry hentry
  rw [hfound] at hone
  exact ⟨entry.2, hone⟩

/-- The tokenizer reads `-c` and one argument in single quotes. -/
theorem tokenize_script {script : String} (h : Quotable script) (hne : script ≠ "") :
    tokenizeCommandLine ("-c '" ++ script ++ "'").toList = .ok ["-c".toList, script.toList] := by
  have hspells : Spells [.plain '-', .plain 'c', .blank ' ', .single script.toList]
      ("-c '" ++ script ++ "'").toList := by
    constructor
    · intro piece hpiece
      simp only [List.mem_cons, List.not_mem_nil, or_false] at hpiece
      rcases hpiece with rfl | rfl | rfl | rfl
      · exact ⟨by decide, by decide⟩
      · exact ⟨by decide, by decide⟩
      · exact show isWhitespace ' ' = true by decide
      · exact h
    · simp [Piece.text]
  have hscript : script.toList ≠ [] := fun hnil => hne (String.toList_eq_nil_iff.mp hnil)
  have harguments : arguments [.plain '-', .plain 'c', .blank ' ', .single script.toList] =
      "-c".toList :: [script.toList].filter (· ≠ []) := by
    rw [← argumentsFrom_nil]
    rfl
  rw [tokenize_pieces hspells, harguments,
    List.filter_cons_of_pos (by simpa using hscript), List.filter_nil]

/-- The command of an accepted check is read as `-c` and its script. -/
theorem tokenize_command {threePlaces : ℕ → String} {config config' : Config}
    (h : expandExternalHealthChecks threePlaces config = .ok config')
    (hmem : (name, check) ∈ config.checked) :
    ∃ script : String,
      check.command threePlacesF64 name = "-c '" ++ script ++ "'" ∧ Quotable script ∧
      tokenizeCommandLine (check.command threePlacesF64 name).toList =
        .ok ["-c".toList, script.toList] := by
  obtain ⟨container, hcheck⟩ := checked_of_expand h hmem
  obtain ⟨hname, hkind⟩ := quotable_of_check hcheck
  obtain ⟨script, hcommand, hscript, hne⟩ := command_eq hname hkind
  refine ⟨script, hcommand, hscript, ?_⟩
  rw [hcommand]
  exact tokenize_script hscript hne

end command

/-- **The tokenizer of command lines.**  Whatever the line: it fails exactly if a quote is left open
or a backslash outside single quotes is the last character, and otherwise returns the arguments of
the pieces that the line is made of.  Arguments that each hold more than white space are read back
from any quoting of each, joined by spaces; in double quotes every text can be quoted, and in single
quotes every one without a single quote.  And whatever the checks that an expansion accepts, each
command is read as `-c` and the script between its single quotes. -/
theorem command_lines (line : Text) :
    ((∃ message, tokenizeCommandLine line = .error message) ↔ Broken line) ∧
      (∀ result, tokenizeCommandLine line = .ok result ↔
        ∃ pieces, Spells pieces line ∧ result = arguments pieces) ∧
      (∀ args texts, List.Forall₂ Quotes args texts →
        (∀ argument ∈ args, holdsNonBlank argument = true) →
        tokenizeCommandLine ([' '].intercalate texts) = .ok args) ∧
      (∀ argument, Quotes argument (doubleQuoted argument)) ∧
      (∀ argument, '\x27' ∉ argument → Quotes argument (singleQuoted argument)) ∧
      ∀ config config', expandExternalHealthChecks threePlacesF64 config = .ok config' →
        ∀ name check, (name, check) ∈ config.checked → ∃ script : String,
          check.command threePlacesF64 name = "-c '" ++ script ++ "'" ∧ Quotable script ∧
            tokenizeCommandLine (check.command threePlacesF64 name).toList =
              .ok ["-c".toList, script.toList] := by
  refine ⟨tokenize_fails_iff, fun result => tokenize_eq_iff, ?_, quotes_doubleQuoted, ?_, ?_⟩
  · exact fun args texts => tokenize_quoted
  · exact fun argument => quotes_singleQuoted
  · exact fun config config' h name check hmem => tokenize_command h hmem

/-- Two arguments, quoted one way and the other. -/
theorem command_lines_quoted :
    tokenizeCommandLine ([' '].intercalate
      [singleQuoted "a b".toList, doubleQuoted "it's".toList]) =
      .ok ["a b".toList, "it's".toList] := by
  refine (command_lines []).2.2.1 _ _ ?_ ?_
  · exact .cons (quotes_singleQuoted (by decide)) (.cons (quotes_doubleQuoted _) .nil)
  · intro argument hargument
    simp only [List.mem_cons, List.not_mem_nil, or_false] at hargument
    rcases hargument with rfl | rfl
    · decide +kernel
    · decide +kernel

end Ratect
