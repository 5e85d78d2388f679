import Ratect.ColonFile
import Ratect.Configuration
import Ratect.Strings

/-! # The files of an image's users

`/etc/passwd` and `/etc/group` as `user.rs` reads and edits them: bytes throughout, a line that is
not edited never decoded or written anew.  What a line says (`parsePasswdEntry`) depends on the text
between its blanks (`onEntry_eq`), and that on its first five fields and its home (`Shape`), which
is what an edit puts in another one's place. -/

namespace Ratect

open ColonFile (Bytes utf8 newline separator)

/-- The largest id: `u32::MAX`. -/
def maxId : ℕ := 2 ^ 32 - 1

/-- `DirectoryOwner`. -/
structure DirectoryOwner where
  uid : ℕ
  gid : ℕ
deriving DecidableEq, Repr

/-- `CurrentUser`: the host user. -/
structure CurrentUser where
  uid : Fin (maxId + 1)
  gid : Fin (maxId + 1)
  username : Text
  groupname : Text

/-- `PasswdEdit`. -/
structure PasswdEdit where
  contents : Bytes
  homeOwner : Option DirectoryOwner
deriving DecidableEq

/-! ### Entries -/

/-- `PasswdEntry`: what a line says, and where in the line its home field is. -/
structure PasswdEntry where
  name : Bytes
  uid : Option ℕ
  gid : Option ℕ
  homeStart : ℕ
  homeEnd : ℕ
  separatorsNeeded : ℕ
deriving DecidableEq

/-- `PASSWD_HOME_FIELD`. -/
def passwdHomeField : ℕ := 5

/-- `entry_range`: where in a line its entry is, if that is neither a comment nor blank. -/
def entryRange (line : Bytes) : Option (ℕ × ℕ) := do
  let start ← ColonFile.firstNonblank line
  let last ← ColonFile.lastNonblank line
  if (line.drop start).head? = some 35 then none else some (start, last + 1)

/-- What is read off the entry of a line, given where it starts and ends and what it is. -/
def onEntry {β : Type} (read : ℕ → ℕ → Bytes → β) (line : Bytes) : Option β :=
  (entryRange line).map fun range =>
    read range.1 range.2 ((line.drop range.1).take (range.2 - range.1))

/-- `parse_id`.  A text with a byte that is no digit is no id, whether it is UTF-8 or not. -/
def parseId (field : Option Bytes) : Option ℕ :=
  field.bind fun bytes => parseUnsigned maxId (bytes.map fun b => Char.ofNat b.toNat)

/-- What the text between the blanks of a line says, given where it starts and ends. -/
def passwdEntryOf (start stop : ℕ) (text : Bytes) : PasswdEntry :=
  let fields := ColonFile.splitN 7 text
  let (homeStart, homeEnd, separatorsNeeded) :=
    match fields[passwdHomeField]? with
    | some home =>
        let before := ((fields.take passwdHomeField).map fun field => field.length + 1).sum
        (start + before, start + before + home.length, 0)
    | none => (stop, stop, passwdHomeField + 1 - fields.length)
  { name := fields.headD []
    uid := parseId fields[2]?
    gid := parseId fields[3]?
    homeStart := homeStart
    homeEnd := homeEnd
    separatorsNeeded := separatorsNeeded }

/-- `parse_passwd_entry`. -/
def parsePasswdEntry : Bytes → Option PasswdEntry := onEntry passwdEntryOf

/-- `first_passwd_entry`. -/
def firstPasswdEntry (passwd : Bytes) (selected : PasswdEntry → Bool) : Option (ℕ × PasswdEntry) :=
  ColonFile.firstFrom parsePasswdEntry selected 0 (ColonFile.lines passwd)

/-! ### Edits -/

/-- `with_passwd_home`. -/
def withPasswdHome (passwd : Bytes) (position : ℕ) (entry : PasswdEntry) (home : Text) : Bytes :=
  passwd.take (position + entry.homeStart) ++
    List.replicate entry.separatorsNeeded separator ++ utf8 home ++
    passwd.drop (position + entry.homeEnd)

/-- `with_line_appended`. -/
def withLineAppended (file : Bytes) (line : Text) : Bytes :=
  ColonFile.ended file ++ utf8 line ++ [newline]

/-- The line that `with_passwd_entry_appended` appends. -/
def passwdLine (name : Text) (uid gid : ℕ) (home : Text) : Text :=
  name ++ ":*:".toList ++ display uid ++ [':'] ++ display gid ++ "::".toList ++
    home ++ ":/bin/sh".toList

/-- `with_passwd_entry_appended`. -/
def withPasswdEntryAppended (passwd : Bytes) (name : Text) (uid gid : ℕ) (home : Text) : Bytes :=
  withLineAppended passwd (passwdLine name uid gid home)

/-- `split_configured_user`. -/
def splitConfiguredUser (configuredUser : Text) : Text × Text :=
  (splitOnce ':' configuredUser).getD (configuredUser, [])

/-- `configured_uid`. -/
def configuredUid (user : Text) : Option ℕ := if user = [] then some 0 else parseUnsigned maxId user

/-- The entries that a configured user selects. -/
def selectsUser (user : Text) (entry : PasswdEntry) : Bool :=
  match configuredUid user with
  | some uid => entry.uid == some uid
  | none => entry.name == utf8 user

/-- `edit_passwd_home`. -/
def editPasswdHome (passwd : Bytes) (configuredUser home : Text) : PasswdEdit :=
  let (user, group) := splitConfiguredUser configuredUser
  let group := parseUnsigned maxId group
  match firstPasswdEntry passwd (selectsUser user) with
  | some (position, entry) =>
      { contents := withPasswdHome passwd position entry home
        homeOwner := some ⟨entry.uid.getD 0, (group.or entry.gid).getD 0⟩ }
  | none =>
      match configuredUid user with
      | none => ⟨passwd, none⟩
      | some uid =>
          let gid := group.getD 0
          let name := if uid = 0 then "root".toList else display uid
          ⟨withPasswdEntryAppended passwd name uid gid home, some ⟨uid, gid⟩⟩

/-- The entries of a uid. -/
def hasUid (uid : ℕ) (entry : PasswdEntry) : Bool := entry.uid == some uid

/-- The entries of a name. -/
def hasName (name : Text) (entry : PasswdEntry) : Bool := entry.name == utf8 name

/-- `edit_passwd_for_host_user`. -/
def editPasswdForHostUser (passwd : Bytes) (user : CurrentUser) (home : Text) : Bytes :=
  match firstPasswdEntry passwd (hasUid user.uid) with
  | some (position, entry) => withPasswdHome passwd position entry home
  | none =>
      let nameTaken := (firstPasswdEntry passwd (hasName user.username)).isSome
      let name := if nameTaken then display user.uid else user.username
      withPasswdEntryAppended passwd name user.uid user.gid home

/-! ### Additional users -/

/-- `CLASH_IS_WITH`. -/
def clashIsWith : String := "that is the image's user or the running user"

/-- A byte as `escape_ascii` displays it. -/
def escapeAsciiByte (b : UInt8) : Text :=
  if b = 9 then ['\\', 't']
  else if b = 10 then ['\\', 'n']
  else if b = 13 then ['\\', 'r']
  else if b = 34 ∨ b = 39 ∨ b = 92 then ['\\', Char.ofNat b.toNat]
  else if 32 ≤ b ∧ b < 127 then [Char.ofNat b.toNat]
  else ['\\', 'x', Nat.digitChar (b.toNat / 16), Nat.digitChar (b.toNat % 16)]

/-- `escape_ascii`. -/
def escapeAscii (bytes : Bytes) : String := String.ofList (bytes.flatMap escapeAsciiByte)

/-- The home of an additional user, which nothing creates. -/
def nonexistent : Text := "/nonexistent".toList

/-- One step of the loop of `with_additional_users`: a clash is looked for in the file as it was. -/
def withAdditionalUser (passwd contents : Bytes) (user : Config.AdditionalUser) :
    Except String Bytes :=
  match firstPasswdEntry passwd (hasUid user.uid) with
  | some (_, entry) =>
      .error (s!"additional user '{user.name}' has uid {user.uid}, which '/etc/passwd' already gives to " ++
        s!"'{escapeAscii entry.name}': {clashIsWith}")
  | none =>
      if (firstPasswdEntry passwd (hasName user.name.toList)).isSome = true then
        .error s!"additional user '{user.name}' has a name '/etc/passwd' already has: {clashIsWith}"
      else .ok (withPasswdEntryAppended contents user.name.toList user.uid user.gid nonexistent)

/-- `with_additional_users`. -/
def withAdditionalUsers (passwd : Bytes) (users : List Config.AdditionalUser) :
    Except String Bytes :=
  users.foldlM (withAdditionalUser passwd) passwd

/-! ### Groups -/

/-- What a line of `/etc/group` says: a name, and an id if it has one. -/
def parseGroupEntry : Bytes → Option (Bytes × Option ℕ) :=
  onEntry fun _ _ text =>
    let fields := text.splitOn separator
    (fields.headD [], parseId fields[2]?)

/-- `group_entry_taken`. -/
def groupEntryTaken (group : Bytes) (name : Text) (gid : ℕ) : Bool :=
  (ColonFile.lines group).any fun line =>
    match parseGroupEntry line with
    | none => false
    | some entry => entry.1 == utf8 name || entry.2 == some gid

/-- The line that names a group. -/
def groupLine (name : Text) (gid : ℕ) : Text := name ++ ":x:".toList ++ display gid ++ [':']

/-- `edit_group_for_host_user`. -/
def editGroupForHostUser (group : Bytes) (user : CurrentUser) : Option Bytes :=
  if groupEntryTaken group user.groupname user.gid then none
  else some (withLineAppended group (groupLine user.groupname user.gid))

/-- `with_additional_groups`. -/
def withAdditionalGroups (group : Bytes) (users : List Config.AdditionalUser) : Bytes :=
  users.foldl (fun contents user =>
    if groupEntryTaken contents user.name.toList user.gid then contents
    else withLineAppended contents (groupLine user.name.toList user.gid)) group

/-! ### What a line says -/

theorem entryRange_eq {lead text trail : Bytes} (hlead : ColonFile.Blank lead)
    (htrail : ColonFile.Blank trail) (htext : ColonFile.Trimmed text) (hne : text ≠ []) :
    entryRange (lead ++ text ++ trail) =
      if text.head? = some 35 then none else some (lead.length, lead.length + text.length) := by
  have hlength : 0 < text.length := List.length_pos_iff.mpr hne
  have hhead : ((lead ++ text ++ trail).drop lead.length).head? = text.head? := by
    rw [List.append_assoc, List.drop_left, List.head?_append_of_ne_nil _ hne]
  unfold entryRange
  rw [ColonFile.firstNonblank_eq hlead htext hne, ColonFile.lastNonblank_eq htrail htext hne]
  dsimp only [bind, Option.bind]
  rw [hhead]
  congr 3
  omega

theorem entryRange_blank {line : Bytes} (h : ColonFile.Blank line) : entryRange line = none := by
  unfold entryRange
  rw [ColonFile.firstNonblank_blank h]
  rfl

theorem onEntry_blank {β : Type} (read : ℕ → ℕ → Bytes → β) {line : Bytes}
    (h : ColonFile.Blank line) : onEntry read line = none := by
  rw [onEntry, entryRange_blank h]
  rfl

/-- What is read off a line is read off the text between its blanks. -/
theorem onEntry_eq {β : Type} (read : ℕ → ℕ → Bytes → β) {lead text trail : Bytes}
    (hlead : ColonFile.Blank lead) (htrail : ColonFile.Blank trail) (htext : ColonFile.Trimmed text)
    (hne : text ≠ []) : onEntry read (lead ++ text ++ trail) =
      if text.head? = some 35 then none
      else some (read lead.length (lead.length + text.length) text) := by
  rw [onEntry, entryRange_eq hlead htrail htext hne]
  split
  · rfl
  · rw [Option.map_some]
    dsimp only
    rw [List.append_assoc, List.drop_left, Nat.add_sub_cancel_left, List.take_left]

/-- A line that says something, by its parts. -/
theorem onEntry_some {β : Type} {read : ℕ → ℕ → Bytes → β} {line : Bytes} {entry : β}
    (h : onEntry read line = some entry) :
    ∃ lead text trail, line = lead ++ text ++ trail ∧ ColonFile.Blank lead ∧ ColonFile.Blank trail ∧
      ColonFile.Trimmed text ∧ text ≠ [] ∧ text.head? ≠ some 35 ∧
      entry = read lead.length (lead.length + text.length) text := by
  obtain ⟨lead, text, trail, rfl, hlead, htrail, htext⟩ := ColonFile.exists_trimmed line
  have hne : text ≠ [] := by
    rintro rfl
    have hblank : ColonFile.Blank (lead ++ [] ++ trail) := by
      intro b hb
      rw [List.append_nil] at hb
      exact (List.mem_append.mp hb).elim (hlead b) (htrail b)
    rw [onEntry_blank read hblank] at h
    cases h
  rw [onEntry_eq read hlead htrail htext hne] at h
  split at h
  · cases h
  · next hcomment =>
      exact ⟨lead, text, trail, rfl, hlead, htrail, htext, hne, hcomment, (Option.some.inj h).symm⟩

/-- The break at the end of a line is not part of what it says. -/
theorem onEntry_newline {β : Type} (read : ℕ → ℕ → Bytes → β) (line : Bytes) :
    onEntry read (line ++ [newline]) = onEntry read line := by
  obtain ⟨lead, text, trail, rfl, hlead, htrail, htext⟩ := ColonFile.exists_trimmed line
  have hblank : ColonFile.Blank (trail ++ [newline]) := by
    intro b hb
    rcases List.mem_append.mp hb with hb | hb
    · exact htrail b hb
    · rw [List.mem_singleton.mp hb]
      rfl
  rw [List.append_assoc]
  by_cases hne : text = []
  · subst hne
    rw [List.append_nil, onEntry_blank, onEntry_blank]
    · exact fun b hb => (List.mem_append.mp hb).elim (hlead b) (htrail b)
    · exact fun b hb => (List.mem_append.mp hb).elim (hlead b) (hblank b)
  · rw [onEntry_eq read hlead hblank htext hne, onEntry_eq read hlead htrail htext hne]

theorem parsePasswdEntry_newline (line : Bytes) :
    parsePasswdEntry (line ++ [newline]) = parsePasswdEntry line :=
  onEntry_newline _ _

/-! ### The fields of an entry -/

/-- The text of an entry by its fields: five, a separator after each, then the home and what follows
it.  A text with too few fields lacks that many separators. -/
structure Shape (text : Bytes) (five : List Bytes) (kept old rest : Bytes)
    (missing : ℕ) : Prop where
  whole : text = kept ++ old ++ rest
  padded : kept ++ List.replicate missing separator = ColonFile.joined five
  length : five.length = 5
  clean : ∀ f ∈ five, separator ∉ f
  cleanHome : separator ∉ old
  after : rest = [] ∨ rest.head? = some separator
  short : missing ≠ 0 → old = [] ∧ rest = []

/-- What the text says, by its fields. -/
def shapedEntry (start : ℕ) (five : List Bytes) (kept old : Bytes) (missing : ℕ) : PasswdEntry :=
  { name := five.headD []
    uid := parseId five[2]?
    gid := parseId five[3]?
    homeStart := start + kept.length
    homeEnd := start + kept.length + old.length
    separatorsNeeded := missing }

theorem sum_joined (fields : List Bytes) :
    (fields.map fun field => field.length + 1).sum = (ColonFile.joined fields).length := by
  unfold ColonFile.joined
  rw [List.length_flatMap]
  simp

/-- A text with all its fields. -/
theorem passwdEntryOf_full {text : Bytes} {five : List Bytes} {kept old rest : Bytes}
    (h : Shape text five kept old rest 0) (start stop : ℕ) :
    passwdEntryOf start stop text = shapedEntry start five kept old 0 := by
  have hkept : kept = ColonFile.joined five := by simpa using h.padded
  have hsplit : ∃ more, ColonFile.splitN 2 (old ++ rest) = old :: more := by
    rcases h.after with hrest | hrest
    · rw [hrest, List.append_nil]
      exact ⟨[], ColonFile.splitN_single 1 h.cleanHome⟩
    · obtain ⟨more, rfl⟩ := List.head?_eq_some_iff.mp hrest
      refine ⟨[more], ?_⟩
      rw [ColonFile.splitN, ColonFile.splitFirst_some.mpr ⟨rfl, h.cleanHome⟩]
      rfl
  obtain ⟨more, hmore⟩ := hsplit
  have hfields : ColonFile.splitN 7 text = five ++ old :: more := by
    have hjoined := ColonFile.splitN_joined h.clean 1 (old ++ rest)
    rw [h.length] at hjoined
    rw [h.whole, hkept, List.append_assoc, hjoined, hmore]
  have hhome : (five ++ old :: more)[passwdHomeField]? = some old := by
    rw [List.getElem?_append_right (by rw [h.length]; exact le_rfl), h.length]
    rfl
  have htake : (five ++ old :: more).take passwdHomeField = five := by
    rw [show passwdHomeField = five.length from h.length.symm, List.take_left]
  have hat : ∀ i < 5, (five ++ old :: more)[i]? = five[i]? := fun i hi =>
    List.getElem?_append_left (by rw [h.length]; exact hi)
  have hname : (five ++ old :: more).headD [] = five.headD [] := by
    cases five with
    | nil => cases h.length
    | cons f five => rfl
  unfold passwdEntryOf shapedEntry
  rw [hfields]
  dsimp only
  rw [hhome, htake, hname, hat 2 (by omega), hat 3 (by omega), hkept, sum_joined]

theorem joined_append (fields more : List Bytes) :
    ColonFile.joined (fields ++ more) = ColonFile.joined fields ++ ColonFile.joined more :=
      List.flatMap_append

theorem joined_replicate (n : ℕ) :
    ColonFile.joined (List.replicate n []) = List.replicate n separator := by
  induction n with
  | zero => rfl
  | succ n ih =>
      rw [List.replicate_succ, List.replicate_succ, ColonFile.joined, List.flatMap_cons]
      exact congrArg (separator :: ·) ih

theorem parseId_nil : parseId (some []) = none := by decide

/-- An id that is missing is one that is empty. -/
theorem parseId_padded (fields : List Bytes) (n i : ℕ) :
    parseId (fields ++ List.replicate n [])[i]? = parseId fields[i]? := by
  rcases Nat.lt_or_ge i fields.length with hi | hi
  · rw [List.getElem?_append_left hi]
  · rw [List.getElem?_append_right hi, List.getElem?_eq_none hi, List.getElem?_replicate]
    split
    · exact parseId_nil
    · rfl

/-- Every text has its fields. -/
theorem exists_shape (start : ℕ) (text : Bytes) : ∃ five kept old rest missing,
    Shape text five kept old rest missing ∧
      passwdEntryOf start (start + text.length) text = shapedEntry start five kept old missing := by
  obtain ⟨fields, last, hsplit, htext, hclean, hle, hlast⟩ := ColonFile.splitN_spec 6 text
  rcases Nat.lt_trichotomy fields.length 5 with hlt | heq | hgt
  · have hjoined : text ++ List.replicate (5 - fields.length) separator =
        ColonFile.joined ((fields ++ [last]) ++ List.replicate (4 - fields.length) []) := by
      rw [joined_append, joined_append, joined_replicate, htext,
        show 5 - fields.length = (4 - fields.length) + 1 by omega, List.replicate_succ]
      simp [ColonFile.joined]
    have hlength : (fields ++ [last] ++ List.replicate (4 - fields.length) []).length = 5 := by
      rw [List.length_append, List.length_append, List.length_replicate, List.length_singleton]
      omega
    have hshape : Shape text (fields ++ [last] ++ List.replicate (4 - fields.length) []) text [] []
        (5 - fields.length) := by
      refine ⟨by simp, hjoined, hlength, ?_, List.not_mem_nil, Or.inl rfl, fun _ => ⟨rfl, rfl⟩⟩
      intro f hf
      rcases List.mem_append.mp hf with hf | hf
      · rcases List.mem_append.mp hf with hf | hf
        · exact hclean f hf
        · rw [List.mem_singleton.mp hf]
          exact hlast (by omega)
      · rw [List.eq_of_mem_replicate hf]
        exact List.not_mem_nil
    refine ⟨_, _, _, _, _, hshape, ?_⟩
    have hhome : (fields ++ [last])[passwdHomeField]? = none := by
      apply List.getElem?_eq_none
      rw [List.length_append, List.length_singleton]
      exact hlt
    have hname : (fields ++ [last] ++ List.replicate (4 - fields.length) []).headD [] =
        (fields ++ [last]).headD [] := by
      cases fields with
      | nil => rfl
      | cons f fields => rfl
    unfold passwdEntryOf shapedEntry
    rw [hsplit]
    dsimp only
    rw [hhome, parseId_padded, parseId_padded, hname, List.length_append, List.length_singleton,
      Nat.add_sub_add_right]
    rfl
  · have hshape : Shape text fields (ColonFile.joined fields) last [] 0 :=
      ⟨by rw [List.append_nil]; exact htext, by simp, heq, hclean, hlast (by omega), Or.inl rfl,
        fun h => absurd rfl h⟩
    exact ⟨_, _, _, _, _, hshape, passwdEntryOf_full hshape _ _⟩
  · have hsix : fields.length = 6 := by omega
    have hfields : fields = fields.take 5 ++ [fields[5]] := by
      rw [List.take_append_getElem, List.take_of_length_le (by omega)]
    have hshape : Shape text (fields.take 5) (ColonFile.joined (fields.take 5)) fields[5]
        (separator :: last) 0 := by
      refine ⟨?_, by simp, by rw [List.length_take]; omega,
        fun f hf => hclean f (List.mem_of_mem_take hf),
        hclean _ (List.getElem_mem _), Or.inr rfl, fun h => absurd rfl h⟩
      rw [htext]
      conv_lhs => rw [hfields, joined_append]
      simp [ColonFile.joined]
    exact ⟨_, _, _, _, _, hshape, passwdEntryOf_full hshape _ _⟩

/-! ### Lines that are appended -/

/-- A text that can be a home: `check_home_directory` accepts no other. -/
structure HomeText (home : Text) : Prop where
  slash : home.head? = some '/'
  colon : ':' ∉ home
  plain : ∀ c ∈ home, isControl c = false

/-- A name that can start a line and stand in a field. -/
structure Nameable (name : Text) : Prop where
  colon : ':' ∉ name
  newline : '\n' ∉ name
  start : ∀ c, name.head? = some c → c ∉ [' ', '\t', '\n', '\x0c', '\r', '#']

theorem eq_of_toNat {b : UInt8} {c d : Char} (hb : b.toNat = c.toNat)
    (hd : b.toNat = d.toNat) : c = d := by
  apply Char.ext
  apply UInt32.toNat_inj.mp
  show c.toNat = d.toNat
  omega

theorem not_mem_utf8 {t : Text} {b : UInt8} {c : Char} (hlt : b.toNat < 128)
    (hc : b.toNat = c.toNat) (h : c ∉ t) : b ∉ utf8 t := by
  intro hb
  obtain ⟨d, hd, hbd⟩ := ColonFile.mem_utf8_ascii hb hlt
  rw [eq_of_toNat hbd hc] at hd
  exact h hd

theorem HomeText.ne_nil {home : Text} (h : HomeText home) : home ≠ [] := by
  rintro rfl
  cases h.slash

theorem HomeText.clean {home : Text} (h : HomeText home) : separator ∉ utf8 home :=
  not_mem_utf8 (by decide) rfl h.colon

theorem HomeText.oneLine {home : Text} (h : HomeText home) : newline ∉ utf8 home := by
  refine not_mem_utf8 (c := '\n') (by decide) rfl fun hc => ?_
  exact absurd (h.plain _ hc) (by decide)

theorem display_clean (n : ℕ) {b : UInt8} (hb : b ∈ utf8 (display n)) :
    b ≠ separator ∧ b ≠ newline := by
  have hnot : ∀ c ∈ display n, c ≠ ':' ∧ c ≠ '\n' := by
    intro c hc
    have hdigit := display_isDigit hc
    constructor
    · rintro rfl
      exact absurd hdigit (by decide)
    · rintro rfl
      exact absurd hdigit (by decide)
  refine ⟨?_, ?_⟩
  · rintro rfl
    exact not_mem_utf8 (c := ':') (by decide) rfl (fun hc => (hnot _ hc).1 rfl) hb
  · rintro rfl
    exact not_mem_utf8 (c := '\n') (by decide) rfl (fun hc => (hnot _ hc).2 rfl) hb

/-- A text of ASCII characters is read back, one byte a character. -/
theorem utf8_ascii {t : Text} (h : ∀ c ∈ t, c.toNat < 128) :
    (utf8 t).map (fun b => Char.ofNat b.toNat) = t := by
  induction t with
  | nil => rfl
  | cons c t ih =>
      have hc : c.toNat < 128 := h c List.mem_cons_self
      rw [ColonFile.utf8_cons, ColonFile.utf8EncodeChar_of_ascii hc,
        List.map_append, List.map_singleton, ih fun d hd => h d (List.mem_cons_of_mem _ hd),
          UInt8.toNat_ofNat', Nat.mod_eq_of_lt (by omega),
        Char.ofNat_toNat]
      rfl

/-- A number is read back. -/
theorem parseId_display {n : ℕ} (h : n ≤ maxId) : parseId (some (utf8 (display n))) = some n := by
  have hascii : ∀ c ∈ display n, c.toNat < 128 := by
    intro c hc
    have hdigit := display_isDigit hc
    simp only [Char.isDigit, Bool.and_eq_true, decide_eq_true_eq] at hdigit
    have hle : c.val.toNat ≤ 57 := hdigit.2
    show c.val.toNat < 128
    omega
  rw [parseId, Option.bind_some, utf8_ascii hascii]
  exact parseUnsigned_display h

theorem isAsciiWhitespace_lt {b : UInt8}
    (h : ColonFile.isAsciiWhitespace b = true) : b.toNat < 128 := by
  simp only [ColonFile.isAsciiWhitespace, List.mem_cons, List.not_mem_nil, or_false,
    decide_eq_true_eq] at h
  rcases h with rfl | rfl | rfl | rfl | rfl
  all_goals decide

/-- How a line that a name starts begins. -/
theorem Nameable.head {name : Text} (hname : Nameable name) {more : Bytes} {b : UInt8}
    (hb : (utf8 name ++ separator :: more).head? = some b) :
    ColonFile.isAsciiWhitespace b = false ∧ b ≠ 35 := by
  cases name with
  | nil =>
      rw [← Option.some.inj hb]
      exact ⟨by decide, by decide⟩
  | cons c name =>
      rw [List.head?_append_of_ne_nil _ (ColonFile.utf8_ne_nil (List.cons_ne_nil _ _))] at hb
      have hstart := hname.start c rfl
      have hne : ∀ d : Char, d ∈ [' ', '\t', '\n', '\x0c', '\r', '#'] → d.toNat < 128 →
          b.toNat ≠ d.toNat := by
        intro d hd hlt heq
        obtain ⟨c', hc', hbc⟩ := ColonFile.utf8_head hb (by omega)
        rw [← Option.some.inj hc'] at hbc
        exact hstart (eq_of_toNat hbc heq ▸ hd)
      constructor
      · cases hblank : ColonFile.isAsciiWhitespace b with
        | false => rfl
        | true =>
            simp only [ColonFile.isAsciiWhitespace, List.mem_cons, List.not_mem_nil, or_false,
              decide_eq_true_eq] at hblank
            rcases hblank with rfl | rfl | rfl | rfl | rfl
            · exact absurd rfl (hne ' ' (by decide) (by decide))
            · exact absurd rfl (hne '\t' (by decide) (by decide))
            · exact absurd rfl (hne '\n' (by decide) (by decide))
            · exact absurd rfl (hne '\x0c' (by decide) (by decide))
            · exact absurd rfl (hne '\r' (by decide) (by decide))
      · rintro rfl
        exact absurd rfl (hne '#' (by decide) (by decide))

/-- What is read off a line that a name starts. -/
theorem onEntry_named {β : Type} (read : ℕ → ℕ → Bytes → β) {name : Text} (hname : Nameable name)
    {more : Bytes}
    (hlast : ∀ b, (separator :: more).getLast? = some b → ColonFile.isAsciiWhitespace b = false) :
    onEntry read (utf8 name ++ separator :: more) =
      some (read 0 (utf8 name ++ separator :: more).length (utf8 name ++ separator :: more)) := by
  have htrimmed : ColonFile.Trimmed (utf8 name ++ separator :: more) := by
    refine ⟨fun b hb => (hname.head hb).1, fun b hb => hlast b ?_⟩
    rw [List.getLast?_append_of_ne_nil _ (List.cons_ne_nil _ _)] at hb
    exact hb
  have hcomment : (utf8 name ++ separator :: more).head? ≠ some 35 := fun h => (hname.head h).2 rfl
  have hblank : ColonFile.Blank [] := by simp [ColonFile.Blank]
  have hread := onEntry_eq read hblank hblank htrimmed (by simp)
  rw [if_neg hcomment, List.append_nil, List.nil_append, List.length_nil, Nat.zero_add] at hread
  exact hread

/-- The fields before the home of the line that `with_passwd_entry_appended` appends. -/
def writtenFields (name : Text) (uid gid : ℕ) : List Bytes :=
  [utf8 name, utf8 ['*'], utf8 (display uid), utf8 (display gid), []]

/-- What that line says. -/
def writtenEntry (name : Text) (uid gid : ℕ) (home : Text) : PasswdEntry where
  name := utf8 name
  uid := some uid
  gid := some gid
  homeStart := (ColonFile.joined (writtenFields name uid gid)).length
  homeEnd := (ColonFile.joined (writtenFields name uid gid)).length + (utf8 home).length
  separatorsNeeded := 0

theorem utf8_passwdLine (name : Text) (uid gid : ℕ) (home : Text) :
    utf8 (passwdLine name uid gid home) =
    ColonFile.joined (writtenFields name uid gid) ++ utf8 home ++ utf8 ":/bin/sh".toList := by
  have hstar : utf8 ":*:".toList = [separator] ++ utf8 ['*'] ++ [separator] := by decide
  have hcolon : utf8 [':'] = [separator] := by decide
  have hcolons : utf8 "::".toList = [separator] ++ [separator] := by decide
  unfold passwdLine writtenFields ColonFile.joined
  simp only [ColonFile.utf8_append, hstar, hcolon, hcolons, List.flatMap_cons,
    List.flatMap_nil, List.append_nil, List.nil_append, List.append_assoc]

section Appended

variable {name home : Text} {uid gid : ℕ}

theorem passwdLine_shape (hname : Nameable name) (hhome : HomeText home) :
    Shape (utf8 (passwdLine name uid gid home)) (writtenFields name uid gid)
      (ColonFile.joined (writtenFields name uid gid)) (utf8 home) (utf8 ":/bin/sh".toList) 0 := by
  refine ⟨utf8_passwdLine name uid gid home, by
    simp, rfl, ?_, hhome.clean, Or.inr (by decide), fun h => absurd rfl h⟩
  intro f hf
  simp only [writtenFields, List.mem_cons, List.not_mem_nil, or_false] at hf
  rcases hf with rfl | rfl | rfl | rfl | rfl
  · exact not_mem_utf8 (by decide) rfl hname.colon
  · decide
  · exact fun h => (display_clean uid h).1 rfl
  · exact fun h => (display_clean gid h).1 rfl
  · exact List.not_mem_nil

theorem passwdLine_oneLine (hname : Nameable name) (hhome : HomeText home) :
    newline ∉ utf8 (passwdLine name uid gid home) := by
  have hnewline : newline ∉ utf8 name := not_mem_utf8 (by decide) rfl hname.newline
  have huid : newline ∉ utf8 (display uid) := fun h => (display_clean uid h).2 rfl
  have hgid : newline ∉ utf8 (display gid) := fun h => (display_clean gid h).2 rfl
  have hstar : newline ∉ utf8 ":*:".toList := by decide
  have hcolon : newline ∉ utf8 [':'] := by decide
  have hcolons : newline ∉ utf8 "::".toList := by decide
  have hshell : newline ∉ utf8 ":/bin/sh".toList := by decide
  unfold passwdLine
  simp only [ColonFile.utf8_append, List.mem_append, not_or]
  exact ⟨⟨⟨⟨⟨⟨⟨hnewline, hstar⟩, huid⟩, hcolon⟩, hgid⟩, hcolons⟩, hhome.oneLine⟩, hshell⟩

/-- The appended line says what it was given. -/
theorem parsePasswdEntry_passwdLine (hname : Nameable name) (huid : uid ≤ maxId)
    (hgid : gid ≤ maxId) (hhome : HomeText home) :
    parsePasswdEntry (utf8 (passwdLine name uid gid home)) =
      some (writtenEntry name uid gid home) := by
  have hline : utf8 (passwdLine name uid gid home) = utf8 name ++ separator ::
      (ColonFile.joined (writtenFields name uid gid).tail ++ utf8 home ++
        utf8 ":/bin/sh".toList) := by
    rw [utf8_passwdLine]
    simp [ColonFile.joined, writtenFields]
  have hlast : ∀ b,
      (separator :: (ColonFile.joined (writtenFields name uid gid).tail ++ utf8 home ++
      utf8 ":/bin/sh".toList)).getLast? = some b → ColonFile.isAsciiWhitespace b = false := by
    intro b hb
    rw [← List.cons_append, List.getLast?_append_of_ne_nil _ (by decide)] at hb
    rw [← Option.some.inj hb]
    decide
  have hread := onEntry_named passwdEntryOf hname hlast
  rw [← hline, passwdEntryOf_full (passwdLine_shape hname hhome)] at hread
  rw [parsePasswdEntry, hread]
  unfold shapedEntry writtenEntry
  simp [writtenFields, parseId_display huid, parseId_display hgid]

/-- The entries of a file that a line was appended to. -/
theorem entries_appended (hname : Nameable name) (huid : uid ≤ maxId) (hgid : gid ≤ maxId)
    (hhome : HomeText home) (passwd : Bytes) :
    (ColonFile.lines (withPasswdEntryAppended passwd name uid gid home)).map parsePasswdEntry =
      (ColonFile.lines passwd).map parsePasswdEntry ++ [some (writtenEntry name uid gid home)] := by
  rw [← parsePasswdEntry_passwdLine hname huid hgid hhome]
  exact ColonFile.map_lines_appended parsePasswdEntry_newline passwd
    (passwdLine_oneLine hname hhome)

/-- What the first entry of such a file is: the file's own, or the one appended. -/
theorem firstPasswdEntry_appended (hname : Nameable name) (huid : uid ≤ maxId) (hgid : gid ≤ maxId)
    (hhome : HomeText home) (passwd : Bytes) (selected : PasswdEntry → Bool) :
    firstPasswdEntry (withPasswdEntryAppended passwd name uid gid home) selected =
      (firstPasswdEntry passwd selected).or
        (if selected (writtenEntry name uid gid home) = true then
          some ((ColonFile.ended passwd).length, writtenEntry name uid gid home) else none) := by
  have hline : newline ∉ utf8 (passwdLine name uid gid home) := passwdLine_oneLine hname hhome
  have hfirst := ColonFile.firstFrom_appended parsePasswdEntry_newline selected passwd hline
  rw [parsePasswdEntry_passwdLine hname huid hgid hhome, Option.filter_some] at hfirst
  refine hfirst.trans ?_
  congr 1
  split
  · rfl
  · rfl

end Appended

end Ratect
