import Mathlib

/-! # Files of lines with fields

The bytes of a file such as `/etc/passwd`: its lines, each with the newline that ends it (`lines`),
what stands between the blanks around a line (`Trimmed`), and the fields that a separator divides it
into (`splitN`).  A file is its lines one after the other (`lines_flatten`), and lines that are well
formed are read back as they are (`lines_of_lined`). -/

namespace ColonFile

/-- The bytes of a file. -/
abbrev Bytes := List UInt8

/-! ### Texts as bytes -/

/-- The UTF-8 encoding of a text. -/
def utf8 (t : List Char) : Bytes := t.flatMap String.utf8EncodeChar

@[simp]
theorem utf8_nil : utf8 [] = [] := rfl

@[simp]
theorem utf8_append (s t : List Char) : utf8 (s ++ t) = utf8 s ++ utf8 t := List.flatMap_append

theorem utf8_cons (c : Char) (t : List Char) : utf8 (c :: t) = String.utf8EncodeChar c ++ utf8 t :=
  List.flatMap_cons

/-- A byte below 128 is the only one of its character. -/
theorem utf8EncodeChar_ascii {c : Char} {b : UInt8} (hb : b ∈ String.utf8EncodeChar c)
    (hlt : b.toNat < 128) : b.toNat = c.toNat := by
  unfold String.utf8EncodeChar at hb
  have hc : c.val.toNat = c.toNat := rfl
  dsimp only at hb
  rw [hc] at hb
  split at hb
  · rw [List.mem_singleton.mp hb, UInt8.toNat_ofNat']
    omega
  · split at hb
    · simp only [List.mem_cons, List.not_mem_nil, or_false] at hb
      rcases hb with rfl | rfl
      · rw [UInt8.toNat_ofNat'] at hlt
        omega
      · rw [UInt8.toNat_ofNat'] at hlt
        omega
    · split at hb
      · simp only [List.mem_cons, List.not_mem_nil, or_false] at hb
        rcases hb with rfl | rfl | rfl
        all_goals
          rw [UInt8.toNat_ofNat'] at hlt
          omega
      · simp only [List.mem_cons, List.not_mem_nil, or_false] at hb
        rcases hb with rfl | rfl | rfl | rfl
        all_goals
          rw [UInt8.toNat_ofNat'] at hlt
          omega

theorem mem_utf8_ascii {t : List Char} {b : UInt8} (hb : b ∈ utf8 t) (hlt : b.toNat < 128) :
    ∃ c ∈ t, b.toNat = c.toNat := by
  obtain ⟨c, hc, hmem⟩ := List.mem_flatMap.mp hb
  exact ⟨c, hc, utf8EncodeChar_ascii hmem hlt⟩

theorem utf8EncodeChar_of_ascii {c : Char} (h : c.toNat < 128) :
    String.utf8EncodeChar c = [UInt8.ofNat c.toNat] := by
  unfold String.utf8EncodeChar
  have hc : c.val.toNat = c.toNat := rfl
  dsimp only
  rw [hc, if_pos (by omega)]

/-- The first byte of a text, where it is below 128, is its first character. -/
theorem utf8_head {t : List Char} {b : UInt8} (hb : (utf8 t).head? = some b) (hlt : b.toNat < 128) :
    ∃ c, t.head? = some c ∧ b.toNat = c.toNat := by
  cases t with
  | nil => cases hb
  | cons c t =>
      refine ⟨c, rfl, ?_⟩
      rw [utf8_cons, List.head?_append_of_ne_nil _ String.utf8EncodeChar_ne_nil] at hb
      exact utf8EncodeChar_ascii (List.mem_of_head? hb) hlt

/-- The last byte of a text, where it is below 128, is its last character. -/
theorem utf8_getLast {t : List Char} {b : UInt8} (hb : (utf8 t).getLast? = some b)
    (hlt : b.toNat < 128) : ∃ c, t.getLast? = some c ∧ b.toNat = c.toNat := by
  induction t using List.reverseRecOn with
  | nil => cases hb
  | append_singleton t c _ =>
      refine ⟨c, by simp, ?_⟩
      rw [utf8_append, utf8_cons, utf8_nil, List.append_nil, List.getLast?_append] at hb
      have hne : String.utf8EncodeChar c ≠ [] := String.utf8EncodeChar_ne_nil
      rw [List.getLast?_eq_some_getLast hne, Option.some_or] at hb
      rw [← Option.some.inj hb] at hlt ⊢
      exact utf8EncodeChar_ascii (List.getLast_mem hne) hlt

theorem utf8_ne_nil {t : List Char} (h : t ≠ []) : utf8 t ≠ [] := by
  cases t with
  | nil => exact absurd rfl h
  | cons c t =>
      rw [utf8_cons]
      exact List.append_ne_nil_of_left_ne_nil String.utf8EncodeChar_ne_nil _

/-! ### Lines -/

/-- The line break. -/
def newline : UInt8 := 10

/-- `split_inclusive` at line breaks: every line with the break that ends it. -/
def lines : Bytes → List Bytes
  | [] => []
  | b :: rest =>
      if b = newline then [b] :: lines rest
      else
        match lines rest with
        | [] => [[b]]
        | line :: more => (b :: line) :: more

/-- Lines as a file has them: each ends with the only break in it, but the last may have none. -/
inductive Lined : List Bytes → Prop
  | nil : Lined []
  | last {line : Bytes} : line ≠ [] → newline ∉ line → Lined [line]
  | cons {body : Bytes} {more : List Bytes} :
      newline ∉ body → Lined more → Lined ((body ++ [newline]) :: more)

/-- A file is its lines. -/
theorem lines_flatten (file : Bytes) : (lines file).flatten = file := by
  induction file with
  | nil => rfl
  | cons b rest ih =>
      unfold lines
      split
      · rw [List.flatten_cons, ih]
        rfl
      · cases hlines : lines rest with
        | nil =>
            rw [hlines] at ih
            rw [← ih]
            rfl
        | cons line more =>
            rw [hlines] at ih
            rw [← ih]
            rfl

theorem Lined.of_lines (file : Bytes) : Lined (lines file) := by
  induction file with
  | nil => exact .nil
  | cons b rest ih =>
      unfold lines
      split
      · next hb =>
          subst hb
          exact @Lined.cons [] _ List.not_mem_nil ih
      · next hb =>
          have hne : newline ≠ b := Ne.symm hb
          cases hlines : lines rest with
          | nil => exact .last (List.cons_ne_nil _ _) (by simpa using hne)
          | cons line more =>
              rw [hlines] at ih
              cases ih with
              | last hnil hnot => exact .last (List.cons_ne_nil _ _) (by simpa [hne] using hnot)
              | @cons body _ hnot hmore =>
                  exact @Lined.cons (b :: body) _ (by simpa [hne] using hnot) hmore

theorem lines_full {body : Bytes} (h : newline ∉ body) (rest : Bytes) :
    lines (body ++ newline :: rest) = (body ++ [newline]) :: lines rest := by
  induction body with
  | nil =>
      rw [List.nil_append, lines, if_pos rfl]
      rfl
  | cons b body ih =>
      rw [List.mem_cons, not_or] at h
      rw [List.cons_append, lines, if_neg (Ne.symm h.1), ih h.2]
      rfl

theorem lines_last {line : Bytes} (hnil : line ≠ []) (h : newline ∉ line) :
    lines line = [line] := by
  induction line with
  | nil => exact absurd rfl hnil
  | cons b line ih =>
      rw [List.mem_cons, not_or] at h
      rw [lines, if_neg (Ne.symm h.1)]
      cases line with
      | nil => rfl
      | cons c line => rw [ih (List.cons_ne_nil _ _) h.2]

/-- Well-formed lines are read back. -/
theorem lines_of_lined {ls : List Bytes} (h : Lined ls) : lines ls.flatten = ls := by
  induction h with
  | nil => rfl
  | last hnil hnot =>
      rw [List.flatten_singleton]
      exact lines_last hnil hnot
  | cons hnot _ ih =>
      rw [List.flatten_cons, List.append_assoc, List.singleton_append, lines_full hnot, ih]

/-- A line among others: only the last may have no break. -/
theorem Lined.parts {pre post : List Bytes} {line : Bytes} (h : Lined (pre ++ line :: post)) :
    ∃ body ending,
      line = body ++ ending ∧ newline ∉ body ∧ (ending = [newline] ∨ ending = [] ∧ post = []) ∧
      ∀ body', body' ≠ [] → newline ∉ body' → Lined (pre ++ (body' ++ ending) :: post) := by
  induction pre with
  | nil =>
      rw [List.nil_append] at h
      cases h with
      | last _ hnot =>
          refine ⟨line, [], by simp, hnot, Or.inr ⟨rfl, rfl⟩, fun body' hnil hbody' => ?_⟩
          rw [List.append_nil]
          exact .last hnil hbody'
      | @cons body _ hnot hmore =>
          exact ⟨body, [newline], rfl, hnot, Or.inl rfl, fun body' _ hbody' => .cons hbody' hmore⟩
  | cons first pre ih =>
      rw [List.cons_append] at h
      cases hmore : pre ++ line :: post with
      | nil => simp at hmore
      | cons second more =>
          rw [hmore] at h
          cases h with
          | cons hnot hlined =>
              rw [← hmore] at hlined
              obtain ⟨body, ending, hline, hbody, hending, hreplace⟩ := ih hlined
              exact ⟨body, ending, hline, hbody, hending, fun body' hnil hbody' =>
                .cons hnot (hreplace body' hnil hbody')⟩

/-! ### Appending a line -/

/-- A file to which a line can be appended: its last line has the break that ends it. -/
def ended (file : Bytes) : Bytes :=
  if file ≠ [] ∧ file.getLast? ≠ some newline then file ++ [newline] else file

theorem Lined.append {full more : List Bytes}
    (hfull : ∀ l ∈ full, ∃ body, newline ∉ body ∧ l = body ++ [newline]) (hmore : Lined more) :
    Lined (full ++ more) := by
  induction full with
  | nil => exact hmore
  | cons line full ih =>
      obtain ⟨body, hbody, rfl⟩ := hfull line List.mem_cons_self
      exact .cons hbody (ih fun l hl => hfull l (List.mem_cons_of_mem _ hl))

/-- Lines that differ at most in the break that ends the last of them. -/
def SameLines (full ls : List Bytes) : Prop :=
  full = ls ∨ ∃ init last, ls = init ++ [last] ∧ full = init ++ [last ++ [newline]]

theorem SameLines.cons {full ls : List Bytes} (line : Bytes) (h : SameLines full ls) :
    SameLines (line :: full) (line :: ls) := by
  rcases h with rfl | ⟨init, last, rfl, rfl⟩
  · exact Or.inl rfl
  · exact Or.inr ⟨line :: init, last, rfl, rfl⟩

theorem SameLines.map {β : Type} {f : Bytes → β} (hf : ∀ l, f (l ++ [newline]) = f l)
    {full ls : List Bytes} (h : SameLines full ls) : full.map f = ls.map f := by
  rcases h with rfl | ⟨init, last, rfl, rfl⟩
  · rfl
  · rw [List.map_append, List.map_append, List.map_singleton, List.map_singleton, hf]

/-- The lines of an ended file are the file's, and each has its break. -/
theorem exists_ended {ls : List Bytes} (h : Lined ls) :
    ∃ full : List Bytes, full.flatten = ended ls.flatten ∧
    SameLines full ls ∧ ∀ l ∈ full, ∃ body, newline ∉ body ∧ l = body ++ [newline] := by
  induction h with
  | nil => exact ⟨[], rfl, Or.inl rfl, by simp⟩
  | @last line hnil hnot =>
      refine ⟨[line ++ [newline]], ?_, Or.inr ⟨[], line, rfl, rfl⟩, ?_⟩
      · have hlast : line.getLast? ≠ some newline := fun h => hnot (List.mem_of_getLast? h)
        rw [List.flatten_singleton, List.flatten_singleton, ended, if_pos ⟨hnil, hlast⟩]
      · intro l hl
        exact ⟨line, hnot, List.mem_singleton.mp hl⟩
  | @cons body more hnot _ ih =>
      obtain ⟨full, hflatten, hsame, hfull⟩ := ih
      refine ⟨(body ++ [newline]) :: full, ?_, hsame.cons _, ?_⟩
      · rw [List.flatten_cons, hflatten, List.flatten_cons, ended, ended]
        have hne : body ++ [newline] ++ more.flatten ≠ [] := by simp
        by_cases hmore : more.flatten = []
        · simp [hmore]
        · have hlast : (body ++ [newline] ++ more.flatten).getLast? = more.flatten.getLast? :=
            List.getLast?_append_of_ne_nil _ hmore
          rw [hlast]
          by_cases hend : more.flatten.getLast? = some newline
          · rw [if_neg fun h => h.2 hend, if_neg fun h => h.2 hend]
          · rw [if_pos ⟨hmore, hend⟩, if_pos ⟨hne, hend⟩, List.append_assoc,
              List.append_assoc, List.append_assoc]
      · intro l hl
        rcases List.mem_cons.mp hl with rfl | hl
        · exact ⟨body, hnot, rfl⟩
        · exact hfull l hl

/-- The lines of a file that a line was appended to. -/
theorem exists_lines_appended (file : Bytes) {body : Bytes} (hbody : newline ∉ body) :
    ∃ full : List Bytes, lines (ended file ++ body ++ [newline]) = full ++ [body ++ [newline]] ∧
      full.flatten = ended file ∧ SameLines full (lines file) := by
  obtain ⟨full, hflatten, hsame, hfull⟩ := exists_ended (Lined.of_lines file)
  rw [lines_flatten] at hflatten
  refine ⟨full, ?_, hflatten, hsame⟩
  have hlined : Lined (full ++ [body ++ [newline]]) := Lined.append hfull (.cons hbody .nil)
  have hfile : ended file ++ body ++ [newline] = (full ++ [body ++ [newline]]).flatten := by
    rw [List.flatten_append, hflatten, List.flatten_singleton, List.append_assoc]
  rw [hfile, lines_of_lined hlined]

/-- What is read off the lines of a file that a line was appended to. -/
theorem map_lines_appended {β : Type} {f : Bytes → β} (hf : ∀ l, f (l ++ [newline]) = f l)
    (file : Bytes) {body : Bytes} (hbody : newline ∉ body) :
    (lines (ended file ++ body ++ [newline])).map f = (lines file).map f ++ [f body] := by
  obtain ⟨full, hlines, _, hsame⟩ := exists_lines_appended file hbody
  rw [hlines, List.map_append, List.map_singleton, hf, hsame.map hf]

/-! ### The first line that says something -/

section First

variable {α : Type} {parse : Bytes → Option α} {selected : α → Bool}

/-- The first line of which something selected is read, with where the line starts; the first of
these lines starts at `position`. -/
def firstFrom (parse : Bytes → Option α) (selected : α → Bool) : ℕ → List Bytes → Option (ℕ × α)
  | _, [] => none
  | position, line :: more =>
      match (parse line).filter selected with
      | some entry => some (position, entry)
      | none => firstFrom parse selected (position + line.length) more

theorem firstFrom_append (position : ℕ) (pre rest : List Bytes) :
    firstFrom parse selected position (pre ++ rest) = (firstFrom parse selected position pre).or
      (firstFrom parse selected (position + pre.flatten.length) rest) := by
  induction pre generalizing position with
  | nil => rfl
  | cons line pre ih =>
      rw [List.cons_append, firstFrom, firstFrom]
      cases (parse line).filter selected with
      | none =>
          dsimp only
          rw [ih, List.flatten_cons, List.length_append, Nat.add_assoc]
      | some entry => rfl

theorem firstFrom_cons {line : Bytes} {entry : α} (hparse : parse line = some entry)
    (hselected : selected entry = true) (position : ℕ) (post : List Bytes) :
    firstFrom parse selected position (line :: post) = some (position, entry) := by
  have hfilter : (parse line).filter selected = some entry := by
    rw [hparse, Option.filter_some, if_pos hselected]
  rw [firstFrom, hfilter]

theorem firstFrom_none {position : ℕ} {ls : List Bytes} :
    firstFrom parse selected position ls = none ↔ ∀ l ∈ ls, (parse l).filter selected = none := by
  induction ls generalizing position with
  | nil => simp [firstFrom]
  | cons line ls ih =>
      rw [firstFrom, List.forall_mem_cons]
      cases hfilter : (parse line).filter selected with
      | none => simpa using ih
      | some entry => simp

/-- The line of the first entry, and the lines before it. -/
theorem firstFrom_some {position found : ℕ} {entry : α} {ls : List Bytes}
    (h : firstFrom parse selected position ls = some (found, entry)) :
    ∃ pre line post, ls = pre ++ line :: post ∧ (∀ l ∈ pre, (parse l).filter selected = none) ∧
      parse line = some entry ∧ selected entry = true ∧ found = position + pre.flatten.length := by
  induction ls generalizing position with
  | nil => cases h
  | cons line ls ih =>
      rw [firstFrom] at h
      cases hfilter : (parse line).filter selected with
      | none =>
          rw [hfilter] at h
          obtain ⟨pre, line', post, rfl, hpre, hparse, hselected, rfl⟩ := ih h
          refine ⟨line :: pre, line', post, rfl, ?_, hparse, hselected, ?_⟩
          · exact List.forall_mem_cons.mpr ⟨hfilter, hpre⟩
          · rw [List.flatten_cons, List.length_append, Nat.add_assoc]
      | some entry' =>
          rw [hfilter] at h
          obtain ⟨rfl, rfl⟩ := Prod.mk.inj (Option.some.inj h)
          obtain ⟨hparse, hselected⟩ := Option.filter_eq_some_iff.mp hfilter
          exact ⟨[], line, ls, rfl, by simp, hparse, hselected, rfl⟩

theorem firstFrom_sameLines (hparse : ∀ l, parse (l ++ [newline]) = parse l) {full ls : List Bytes}
    (h : SameLines full ls) (position : ℕ) :
    firstFrom parse selected position full = firstFrom parse selected position ls := by
  rcases h with rfl | ⟨init, last, rfl, rfl⟩
  · rfl
  · rw [firstFrom_append, firstFrom_append, firstFrom, firstFrom, hparse]
    rfl

/-- A lookup in a file that a line was appended to: in the file first. -/
theorem firstFrom_appended (hparse : ∀ l, parse (l ++ [newline]) = parse l) (selected : α → Bool)
    (file : Bytes) {body : Bytes} (hbody : newline ∉ body) :
    firstFrom parse selected 0 (lines (ended file ++ body ++ [newline])) =
      (firstFrom parse selected 0 (lines file)).or
        (((parse body).filter selected).map fun entry => ((ended file).length, entry)) := by
  obtain ⟨full, hlines, hflatten, hsame⟩ := exists_lines_appended file hbody
  rw [hlines, firstFrom_append, firstFrom_sameLines hparse hsame, hflatten,
    Nat.zero_add, firstFrom, hparse]
  cases (parse body).filter selected with
  | none => rfl
  | some entry => rfl

end First

/-! ### Blanks -/

/-- `u8::is_ascii_whitespace`. -/
def isAsciiWhitespace (b : UInt8) : Bool := b ∈ [0x20, 0x09, 0x0a, 0x0c, 0x0d]

/-- All blanks. -/
def Blank (t : Bytes) : Prop := ∀ b ∈ t, isAsciiWhitespace b = true

/-- A text with no blank at either end. -/
structure Trimmed (t : Bytes) : Prop where
  head : ∀ b, t.head? = some b → isAsciiWhitespace b = false
  last : ∀ b, t.getLast? = some b → isAsciiWhitespace b = false

/-- A line is a trimmed text with blanks around it. -/
theorem exists_trimmed (line : Bytes) :
    ∃ lead text trail, line = lead ++ text ++ trail ∧ Blank lead ∧ Blank trail ∧ Trimmed text := by
  have hlead : line = line.takeWhile isAsciiWhitespace ++ line.dropWhile isAsciiWhitespace :=
    (List.takeWhile_append_dropWhile).symm
  generalize hrest : line.dropWhile isAsciiWhitespace = rest at hlead
  have htrail : rest = rest.rdropWhile isAsciiWhitespace ++ rest.rtakeWhile isAsciiWhitespace := by
    rw [List.rdropWhile, List.rtakeWhile, ← List.reverse_append, List.takeWhile_append_dropWhile,
      List.reverse_reverse]
  refine ⟨line.takeWhile isAsciiWhitespace, rest.rdropWhile isAsciiWhitespace,
    rest.rtakeWhile isAsciiWhitespace,
    ?_, fun b hb => List.mem_takeWhile_imp hb, fun b hb => List.mem_rtakeWhile_imp hb, ?_, ?_⟩
  · rw [List.append_assoc, ← htrail]
    exact hlead
  · intro b hb
    have hhead : rest.head? = some b := by
      rw [htrail, List.head?_append, hb]
      rfl
    rw [← hrest] at hhead
    have hnot := List.head?_dropWhile_not isAsciiWhitespace line
    rw [hhead] at hnot
    simpa using hnot
  · intro b hb
    have hne : rest.rdropWhile isAsciiWhitespace ≠ [] := by
      intro hnil
      rw [hnil] at hb
      cases hb
    rw [← List.getLast_of_getLast?_eq_some hb]
    simpa using List.rdropWhile_last_not isAsciiWhitespace rest hne

/-- `position` and `rposition` of a byte that is no blank. -/
def firstNonblank (line : Bytes) : Option ℕ := line.findIdx? fun b => !isAsciiWhitespace b

/-- The same from the end, counted from the start. -/
def lastNonblank (line : Bytes) : Option ℕ :=
  (line.reverse.findIdx? fun b => !isAsciiWhitespace b).map (line.length - 1 - ·)

theorem findIdx?_after_blanks {blanks text : Bytes} (hblanks : Blank blanks) (hne : text ≠ [])
    (hhead : ∀ b, text.head? = some b → isAsciiWhitespace b = false) :
    ((blanks ++ text).findIdx? fun b => !isAsciiWhitespace b) = some blanks.length := by
  induction blanks with
  | nil =>
      cases text with
      | nil => exact absurd rfl hne
      | cons b text =>
          rw [List.nil_append, List.findIdx?_cons, hhead b rfl]
          rfl
  | cons b blanks ih =>
      rw [List.cons_append, List.findIdx?_cons, hblanks b List.mem_cons_self,
        ih fun b' hb' => hblanks b' (List.mem_cons_of_mem _ hb')]
      rfl

theorem firstNonblank_eq {lead text trail : Bytes} (hlead : Blank lead) (htext : Trimmed text)
    (hne : text ≠ []) : firstNonblank (lead ++ text ++ trail) = some lead.length := by
  rw [firstNonblank, List.append_assoc]
  apply findIdx?_after_blanks hlead (List.append_ne_nil_of_left_ne_nil hne _)
  intro b hb
  rw [List.head?_append_of_ne_nil _ hne] at hb
  exact htext.head b hb

theorem lastNonblank_eq {lead text trail : Bytes} (htrail : Blank trail) (htext : Trimmed text)
    (hne : text ≠ []) :
    lastNonblank (lead ++ text ++ trail) = some (lead.length + text.length - 1) := by
  have hreverse : (lead ++ text ++ trail).reverse =
      trail.reverse ++ (text.reverse ++ lead.reverse) := by simp
  have hblank : Blank trail.reverse := fun b hb => htrail b (List.mem_reverse.mp hb)
  have hne' : text.reverse ≠ [] := by simpa using hne
  rw [lastNonblank, hreverse,
    findIdx?_after_blanks hblank (List.append_ne_nil_of_left_ne_nil hne' _)]
  · have hlength : 0 < text.length := List.length_pos_iff.mpr hne
    rw [Option.map_some, List.length_append, List.length_append, List.length_reverse]
    congr 1
    omega
  · intro b hb
    rw [List.head?_append_of_ne_nil _ hne', List.head?_reverse] at hb
    exact htext.last b hb

theorem firstNonblank_blank {line : Bytes} (h : Blank line) : firstNonblank line = none := by
  rw [firstNonblank, List.findIdx?_eq_none_iff]
  intro b hb
  simpa using h b hb

/-! ### Fields -/

/-- The separator of fields. -/
def separator : UInt8 := 58

/-- Up to the first separator, and what follows it. -/
def splitFirst : Bytes → Option (Bytes × Bytes)
  | [] => none
  | b :: rest =>
      if b = separator then some ([], rest)
      else (splitFirst rest).map fun parts => (b :: parts.1, parts.2)

/-- `splitn`: at most so many fields, the last of which holds whatever is left. -/
def splitN : ℕ → Bytes → List Bytes
  | 0, _ => []
  | 1, text => [text]
  | n + 2, text =>
      match splitFirst text with
      | none => [text]
      | some (field, rest) => field :: splitN (n + 1) rest

/-- Fields, each with a separator after it. -/
def joined (fields : List Bytes) : Bytes := fields.flatMap (· ++ [separator])

theorem splitFirst_none {text : Bytes} : splitFirst text = none ↔ separator ∉ text := by
  induction text with
  | nil => simp [splitFirst]
  | cons b text ih =>
      rw [splitFirst, List.mem_cons, not_or]
      split
      · next hb => simp [hb]
      · next hb =>
          rw [Option.map_eq_none_iff, ih]
          exact ⟨fun h => ⟨Ne.symm hb, h⟩, fun h => h.2⟩

theorem splitFirst_some {text field rest : Bytes} :
    splitFirst text = some (field, rest) ↔
      text = field ++ separator :: rest ∧ separator ∉ field := by
  induction text generalizing field with
  | nil => simp [splitFirst]
  | cons b text ih =>
      rw [splitFirst]
      by_cases hb : b = separator
      · rw [if_pos hb, Option.some.injEq, Prod.mk.injEq]
        constructor
        · rintro ⟨rfl, rfl⟩
          exact ⟨by rw [hb]; rfl, List.not_mem_nil⟩
        · rintro ⟨htext, hnot⟩
          cases field with
          | nil => exact ⟨rfl, (List.cons.inj htext).2⟩
          | cons c field =>
              rw [List.cons_append] at htext
              rw [← (List.cons.inj htext).1, hb] at hnot
              exact absurd List.mem_cons_self hnot
      · rw [if_neg hb, Option.map_eq_some_iff]
        constructor
        · rintro ⟨⟨front, rest'⟩, hsplit, heq⟩
          obtain ⟨rfl, rfl⟩ := Prod.mk.inj heq
          obtain ⟨rfl, hnot⟩ := ih.mp hsplit
          exact ⟨rfl, by simpa [Ne.symm hb] using hnot⟩
        · rintro ⟨htext, hnot⟩
          cases field with
          | nil => exact absurd (List.cons.inj htext).1 hb
          | cons c field =>
              rw [List.cons_append] at htext
              obtain ⟨rfl, rfl⟩ := List.cons.inj htext
              rw [List.mem_cons, not_or] at hnot
              exact ⟨(field, rest), ih.mpr ⟨rfl, hnot.2⟩, rfl⟩

theorem splitN_joined {fields : List Bytes} (hfields : ∀ f ∈ fields, separator ∉ f) (n : ℕ)
    (rest : Bytes) :
    splitN (n + 1 + fields.length) (joined fields ++ rest) = fields ++ splitN (n + 1) rest := by
  induction fields with
  | nil => rfl
  | cons f fields ih =>
      have hnot : separator ∉ f := hfields f List.mem_cons_self
      have htext : joined (f :: fields) ++ rest = f ++ separator :: (joined fields ++ rest) := by
        unfold joined
        simp
      have hcount : n + 1 + (f :: fields).length = (n + fields.length) + 2 := by
        rw [List.length_cons]
        omega
      rw [hcount, splitN, htext, splitFirst_some.mpr ⟨rfl, hnot⟩]
      dsimp only
      rw [show n + fields.length + 1 = n + 1 + fields.length by omega,
        ih fun f' hf' => hfields f' (List.mem_cons_of_mem _ hf')]
      rfl

theorem splitN_single (n : ℕ) {text : Bytes} (h : separator ∉ text) :
    splitN (n + 1) text = [text] := by
  cases n with
  | zero => rfl
  | succ n => rw [splitN, splitFirst_none.mpr h]

/-- A text by its fields: all but the last have a separator after them, and where there are fewer
than could be, the last has no separator in it. -/
theorem splitN_spec (n : ℕ) (text : Bytes) : ∃ fields last, splitN (n + 1) text = fields ++ [last] ∧
    text = joined fields ++ last ∧ (∀ f ∈ fields, separator ∉ f) ∧ fields.length ≤ n ∧
    (fields.length < n → separator ∉ last) := by
  induction n generalizing text with
  | zero => exact ⟨[], text, rfl, rfl, by simp, le_rfl, by simp⟩
  | succ n ih =>
      cases hsplit : splitFirst text with
      | none =>
          have hnot := splitFirst_none.mp hsplit
          exact ⟨[], text, splitN_single _ hnot, rfl, by simp, Nat.zero_le _, fun _ => hnot⟩
      | some parts =>
          obtain ⟨field, rest⟩ := parts
          obtain ⟨rfl, hnot⟩ := splitFirst_some.mp hsplit
          obtain ⟨fields, last, hfields, rfl, hclean, hle, hlast⟩ := ih rest
          refine ⟨field :: fields, last, ?_, ?_, ?_, ?_, ?_⟩
          · rw [splitN, hsplit]
            dsimp only
            rw [hfields, List.cons_append]
          · unfold joined
            simp
          · intro f hf
            rcases List.mem_cons.mp hf with rfl | hf
            · exact hnot
            · exact hclean f hf
          · rw [List.length_cons]
            omega
          · rw [List.length_cons]
            exact fun hlt => hlast (by omega)

end ColonFile
