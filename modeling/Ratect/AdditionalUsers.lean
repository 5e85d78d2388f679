import Ratect.ProjectRules
import Ratect.Passwd

/-! # The users a container adds

`with_additional_users` and `with_additional_groups`.  A user's clashes are looked for in the file
as the image has it, and their line is appended to what the users before made of it; that no two of
these clash is `validate_additional_users`' word (`Apart`).  A group is looked for in the file as it
has become. -/

namespace Ratect

open ColonFile (Bytes utf8 newline separator)
open Config (AdditionalUser)

/-! ### The users that are accepted -/

/-- Two users who share nothing. -/
structure Apart (a b : AdditionalUser) : Prop where
  name : a.name ≠ b.name
  uid : a.uid ≠ b.uid
  gid : a.gid ≠ b.gid

theorem isUserName_ascii {name : String} (h : isUserName name = true) :
    ∀ c ∈ name.toList, c.toNat < 128 := by
  have halpha : ∀ c : Char, c.isAlpha = true → c.toNat < 128 := by
    intro c hc
    simp only [Char.isAlpha, Char.isUpper, Char.isLower, Bool.or_eq_true, Bool.and_eq_true,
      decide_eq_true_eq] at hc
    show c.val.toNat < 128
    rcases hc with hc | hc
    · have hle : c.val.toNat ≤ 90 := hc.2
      omega
    · have hle : c.val.toNat ≤ 122 := hc.2
      omega
  have hdigit : ∀ c : Char, c.isDigit = true → c.toNat < 128 := by
    intro c hc
    simp only [Char.isDigit, Bool.and_eq_true, decide_eq_true_eq] at hc
    have hle : c.val.toNat ≤ 57 := hc.2
    show c.val.toNat < 128
    omega
  unfold isUserName at h
  cases hname : name.toList with
  | nil => simp
  | cons first rest =>
      rw [hname] at h
      simp only [Bool.and_eq_true, Bool.or_eq_true, beq_iff_eq, List.all_eq_true, decide_eq_true_eq,
        Char.isAlphanum] at h
      intro c hc
      rcases List.mem_cons.mp hc with rfl | hc
      · rcases h.1 with hfirst | rfl
        · exact halpha _ hfirst
        · decide
      · rcases h.2 c hc with (hc | hc) | hc
        · exact halpha c hc
        · exact hdigit c hc
        · simp only [List.mem_cons, List.not_mem_nil, or_false] at hc
          rcases hc with rfl | rfl | rfl
          all_goals decide

theorem isUserName_nameable {name : String} (h : isUserName name = true) :
    Nameable name.toList := by
  unfold isUserName at h
  cases hname : name.toList with
  | nil =>
      rw [hname] at h
      cases h
  | cons first rest =>
      rw [hname] at h
      simp only [Bool.and_eq_true, Bool.or_eq_true, beq_iff_eq, List.all_eq_true,
        decide_eq_true_eq] at h
      have hfirst : ∀ d : Char, (d.isAlpha || d == '_') = false → first ≠ d := by
        rintro d hd rfl
        rcases h.1 with h | h
        · simp [h] at hd
        · simp [h] at hd
      have hrest : ∀ d : Char,
          (d.isAlphanum || decide (d ∈ ['_', '.', '-'])) = false → d ∉ rest := by
        intro d hd hmem
        rcases h.2 d hmem with h | h
        · simp [h] at hd
        · simp [h] at hd
      refine ⟨?_, ?_, ?_⟩
      · rw [List.mem_cons, not_or]
        exact ⟨(hfirst ':' (by decide)).symm, hrest ':' (by decide)⟩
      · rw [List.mem_cons, not_or]
        exact ⟨(hfirst '\n' (by decide)).symm, hrest '\n' (by decide)⟩
      · intro c hc hmem
        rw [← Option.some.inj hc] at hmem
        simp only [List.mem_cons, List.not_mem_nil, or_false] at hmem
        rcases hmem with h | h | h | h | h | h
        all_goals exact hfirst _ (by decide) h

/-- What the validator promises of a list, and of the users seen before it. -/
theorem validateAdditionalUsers_ok {container : String} {seen users : List AdditionalUser}
    (h : validateAdditionalUsers container seen users = .ok ()) :
    (∀ u ∈ users, isUserName u.name = true) ∧ users.Pairwise Apart ∧
      ∀ e ∈ seen, ∀ u ∈ users, Apart e u := by
  induction users generalizing seen with
  | nil => simp
  | cons user users ih =>
      unfold validateAdditionalUsers at h
      obtain ⟨_, hname, h⟩ := Except.bind_eq_ok.mp h
      obtain ⟨_, _, h⟩ := Except.bind_eq_ok.mp h
      obtain ⟨_, hseen, h⟩ := Except.bind_eq_ok.mp h
      obtain ⟨hnames, hpairwise, happart⟩ := ih h
      have huser : ∀ e ∈ seen, Apart e user := by
        intro e he
        have hchecks := Except.forM_eq_ok.mp hseen e he
        obtain ⟨_, h1, hchecks⟩ := Except.bind_eq_ok.mp hchecks
        obtain ⟨_, h2, h3⟩ := Except.bind_eq_ok.mp hchecks
        exact ⟨Except.ensure_eq_ok.mp h1, Except.ensure_eq_ok.mp h2, Except.ensure_eq_ok.mp h3⟩
      refine ⟨?_, ?_, ?_⟩
      · exact List.forall_mem_cons.mpr ⟨Except.ensure_eq_ok.mp hname, hnames⟩
      · exact List.pairwise_cons.mpr ⟨fun u hu => happart user (by simp) u hu, hpairwise⟩
      · intro e he u hu
        rcases List.mem_cons.mp hu with rfl | hu
        · exact huser e he
        · exact happart e (List.mem_append_left _ he) u hu

/-! ### Users -/

/-- The entries of `/etc/passwd`. -/
def passwdEntries (passwd : Bytes) : List PasswdEntry :=
  (ColonFile.lines passwd).filterMap parsePasswdEntry

theorem firstPasswdEntry_none {passwd : Bytes} {selected : PasswdEntry → Bool} :
    firstPasswdEntry passwd selected = none ↔
      ∀ entry ∈ passwdEntries passwd, selected entry = false := by
  unfold firstPasswdEntry passwdEntries
  rw [ColonFile.firstFrom_none]
  simp only [Option.filter_eq_none_iff, List.mem_filterMap, Bool.not_eq_true]
  constructor
  · rintro h entry ⟨line, hline, hparse⟩
    exact h line hline entry hparse
  · intro h line hline entry hparse
    exact h entry ⟨line, hline, hparse⟩

/-- The line of an additional user. -/
def userLine (user : AdditionalUser) : Text :=
  passwdLine user.name.toList user.uid user.gid nonexistent

/-- What it says. -/
def userEntry (user : AdditionalUser) : PasswdEntry :=
  writtenEntry user.name.toList user.uid user.gid nonexistent

/-- A file with the line of a user. -/
def userAppended (contents : Bytes) (user : AdditionalUser) : Bytes :=
  withPasswdEntryAppended contents user.name.toList user.uid user.gid nonexistent

/-- Nobody in a file has the uid or the name of a user. -/
def Unknown (passwd : Bytes) (user : AdditionalUser) : Prop :=
  firstPasswdEntry passwd (hasUid user.uid) = none ∧
    firstPasswdEntry passwd (hasName user.name.toList) = none

theorem unknown_iff {passwd : Bytes} {user : AdditionalUser} : Unknown passwd user ↔
    ∀ entry ∈ passwdEntries passwd,
      entry.uid ≠ some user.uid ∧ entry.name ≠ utf8 user.name.toList := by
  unfold Unknown
  rw [firstPasswdEntry_none, firstPasswdEntry_none]
  constructor
  · rintro ⟨huid, hname⟩ entry hentry
    exact ⟨beq_eq_false_iff_ne.mp (huid entry hentry), beq_eq_false_iff_ne.mp (hname entry hentry)⟩
  · intro h
    exact ⟨fun entry hentry => beq_eq_false_iff_ne.mpr (h entry hentry).1,
      fun entry hentry => beq_eq_false_iff_ne.mpr (h entry hentry).2⟩

/-- One round of the loop. -/
theorem withAdditionalUser_eq {passwd contents contents' : Bytes} {user : AdditionalUser} :
    withAdditionalUser passwd contents user = .ok contents' ↔
      Unknown passwd user ∧ userAppended contents user = contents' := by
  unfold withAdditionalUser Unknown userAppended
  cases firstPasswdEntry passwd (hasUid user.uid) with
  | some found => simp
  | none =>
      dsimp only
      cases firstPasswdEntry passwd (hasName user.name.toList) with
      | some found => simp
      | none => simp

/-- The loop succeeds when no user is in the file that clashes are looked for in. -/
theorem foldlM_withAdditionalUser {passwd start contents : Bytes} {users : List AdditionalUser} :
    users.foldlM (withAdditionalUser passwd) start = .ok contents ↔
      (∀ u ∈ users, Unknown passwd u) ∧ users.foldl userAppended start = contents := by
  induction users generalizing start with
  | nil => simp [pure, Except.pure]
  | cons user users ih =>
      rw [List.foldlM_cons, Except.bind_eq_ok, List.forall_mem_cons, List.foldl_cons]
      constructor
      · rintro ⟨next, hnext, hrest⟩
        obtain ⟨huser, rfl⟩ := withAdditionalUser_eq.mp hnext
        obtain ⟨husers, hcontents⟩ := ih.mp hrest
        exact ⟨⟨huser, husers⟩, hcontents⟩
      · rintro ⟨⟨huser, husers⟩, hcontents⟩
        exact ⟨_, withAdditionalUser_eq.mpr ⟨huser, rfl⟩, ih.mpr ⟨husers, hcontents⟩⟩

/-! ### Lookups -/

theorem nonexistent_home : HomeText nonexistent := by
  refine ⟨rfl, by decide, ?_⟩
  have hplain : (nonexistent.all fun c => !isControl c) = true := by decide
  intro c hc
  simpa using List.all_eq_true.mp hplain c hc

/-- A user whose line can be appended. -/
structure Writable (user : AdditionalUser) : Prop where
  name : isUserName user.name = true
  uid : user.uid ≤ maxId
  gid : user.gid ≤ maxId

theorem firstPasswdEntry_userAppended {user : AdditionalUser} (h : Writable user) (contents : Bytes)
    (selected : PasswdEntry → Bool) : firstPasswdEntry (userAppended contents user) selected =
      (firstPasswdEntry contents selected).or (if selected (userEntry user) = true then
        some ((ColonFile.ended contents).length, userEntry user) else none) :=
  firstPasswdEntry_appended (isUserName_nameable h.name) h.uid h.gid
    nonexistent_home contents selected

/-- What is found stays found. -/
theorem lookup_kept {users : List AdditionalUser} (h : ∀ u ∈ users, Writable u) {contents : Bytes}
    {selected : PasswdEntry → Bool} {found : ℕ × PasswdEntry}
    (hfound : firstPasswdEntry contents selected = some found) :
    firstPasswdEntry (users.foldl userAppended contents) selected = some found := by
  induction users generalizing contents with
  | nil => exact hfound
  | cons user users ih =>
      apply ih fun u hu => h u (List.mem_cons_of_mem _ hu)
      rw [firstPasswdEntry_userAppended (h user List.mem_cons_self), hfound]
      rfl

/-- What no user is, is not found after them either. -/
theorem lookup_none {users : List AdditionalUser} (h : ∀ u ∈ users, Writable u) {contents : Bytes}
    {selected : PasswdEntry → Bool} (hnone : firstPasswdEntry contents selected = none)
    (hother : ∀ u ∈ users, selected (userEntry u) = false) :
    firstPasswdEntry (users.foldl userAppended contents) selected = none := by
  induction users generalizing contents with
  | nil => exact hnone
  | cons user users ih =>
      apply ih (fun u hu => h u (List.mem_cons_of_mem _ hu)) _ fun u hu =>
        hother u (List.mem_cons_of_mem _ hu)
      rw [firstPasswdEntry_userAppended (h user List.mem_cons_self), hnone,
        hother user List.mem_cons_self]
      rfl

/-- A file that is appended to is the beginning of what it becomes. -/
theorem prefix_userAppended (users : List AdditionalUser) (contents : Bytes) :
    contents <+: users.foldl userAppended contents := by
  induction users generalizing contents with
  | nil => exact List.prefix_rfl
  | cons user users ih =>
      refine List.IsPrefix.trans ?_ (ih (userAppended contents user))
      unfold userAppended withPasswdEntryAppended withLineAppended
      rw [List.append_assoc]
      refine List.IsPrefix.trans ?_ (List.prefix_append _ _)
      unfold ColonFile.ended
      split
      · exact List.prefix_append _ _
      · exact List.prefix_rfl

/-- A selection that a user is the first to meet finds their own line. -/
theorem lookup_own {before after : List AdditionalUser} {user : AdditionalUser}
    (h : ∀ u ∈ before ++ user :: after, Writable u) {passwd : Bytes} {selected : PasswdEntry → Bool}
    (hnone : firstPasswdEntry passwd selected = none)
    (hbefore : ∀ u ∈ before, selected (userEntry u) = false)
    (hselected : selected (userEntry user) = true) :
    firstPasswdEntry ((before ++ user :: after).foldl userAppended passwd) selected =
      some ((ColonFile.ended (before.foldl userAppended passwd)).length, userEntry user) := by
  rw [List.foldl_append, List.foldl_cons]
  apply lookup_kept fun u hu => h u (List.mem_append_right _ (List.mem_cons_of_mem _ hu))
  rw [firstPasswdEntry_userAppended (h user (by simp)),
    lookup_none (fun u hu => h u (List.mem_append_left _ hu)) hnone hbefore,
      if_pos hselected, Option.none_or]

/-- A lookup by a user's name, and one by their uid, finds the line that was appended for them. -/
def FindsOwnLine (contents : Bytes) (user : AdditionalUser) : Prop :=
  ∃ before after entry, contents = before ++ utf8 (userLine user) ++ [newline] ++ after ∧
    firstPasswdEntry contents (hasName user.name.toList) = some (before.length, entry) ∧
    firstPasswdEntry contents (hasUid user.uid) = some (before.length, entry) ∧
    entry.name = utf8 user.name.toList ∧ entry.uid = some user.uid ∧ entry.gid = some user.gid

theorem utf8_name_injective {a b : AdditionalUser} (ha : isUserName a.name = true)
    (hb : isUserName b.name = true)
    (h : utf8 a.name.toList = utf8 b.name.toList) : a.name = b.name := by
  have hread := congrArg (List.map fun byte => Char.ofNat byte.toNat) h
  rw [utf8_ascii (isUserName_ascii ha), utf8_ascii (isUserName_ascii hb)] at hread
  exact String.toList_inj.mp hread

theorem findsOwnLine {users : List AdditionalUser} (h : ∀ u ∈ users, Writable u)
    (happart : users.Pairwise Apart) {passwd : Bytes} {user : AdditionalUser} (hmem : user ∈ users)
    (hunknown : Unknown passwd user) : FindsOwnLine (users.foldl userAppended passwd) user := by
  obtain ⟨before, after, rfl⟩ := List.append_of_mem hmem
  have hbefore : ∀ u ∈ before, Apart u user := fun u hu =>
    (List.pairwise_append.mp happart).2.2 u hu user List.mem_cons_self
  have huid := lookup_own h hunknown.1
    (fun u hu => beq_eq_false_iff_ne.mpr fun heq => (hbefore u hu).uid (Option.some.inj heq))
      (beq_self_eq_true _)
  have hname := lookup_own h hunknown.2
    (fun u hu => beq_eq_false_iff_ne.mpr fun heq => (hbefore u hu).name
      (utf8_name_injective (h u (List.mem_append_left _ hu)).name (h user hmem).name heq))
        (beq_self_eq_true _)
  obtain ⟨more, hmore⟩ :=
    prefix_userAppended after (userAppended (before.foldl userAppended passwd) user)
  refine ⟨_, more, _, ?_, hname, huid, rfl, rfl, rfl⟩
  rw [List.foldl_append, List.foldl_cons, ← hmore]
  rfl

/-! ### Groups -/

/-- The entries of `/etc/group`. -/
def groupEntries (group : Bytes) : List (Bytes × Option ℕ) :=
  (ColonFile.lines group).filterMap parseGroupEntry

/-- A lookup in `/etc/group`, of the first entry that is selected. -/
def firstGroupEntry (group : Bytes) (selected : Bytes × Option ℕ → Bool) :
    Option (ℕ × Bytes × Option ℕ) :=
  ColonFile.firstFrom parseGroupEntry selected 0 (ColonFile.lines group)

/-- Two entries with neither their name nor their gid in common. -/
def NothingShared (a b : Bytes × Option ℕ) : Prop := a.1 ≠ b.1 ∧ a.2 ≠ b.2

theorem parseGroupEntry_newline (line : Bytes) :
    parseGroupEntry (line ++ [newline]) = parseGroupEntry line :=
  onEntry_newline _ _

theorem utf8_groupLine (name : Text) (gid : ℕ) : utf8 (groupLine name gid) =
    [separator].intercalate [utf8 name, utf8 ['x'], utf8 (display gid), []] := by
  have hx : utf8 ":x:".toList = [separator] ++ utf8 ['x'] ++ [separator] := by decide
  have hcolon : utf8 [':'] = [separator] := by decide
  unfold groupLine
  rw [ColonFile.utf8_append, ColonFile.utf8_append, ColonFile.utf8_append, hx, hcolon]
  simp [List.intercalate]

/-- The line of a group says its name and its gid. -/
theorem parseGroupEntry_groupLine {name : Text} {gid : ℕ} (hname : Nameable name)
    (hgid : gid ≤ maxId) :
    parseGroupEntry (utf8 (groupLine name gid)) = some (utf8 name, some gid) := by
  have hline : utf8 (groupLine name gid) = utf8 name ++ separator ::
      ((utf8 ['x'] ++ [separator] ++ utf8 (display gid)) ++ [separator]) := by
    rw [utf8_groupLine]
    simp [List.intercalate]
  have hfields : (utf8 (groupLine name gid)).splitOn separator =
      [utf8 name, utf8 ['x'], utf8 (display gid), []] := by
    rw [utf8_groupLine, List.splitOn_intercalate]
    · intro f hf
      simp only [List.mem_cons, List.not_mem_nil, or_false] at hf
      rcases hf with rfl | rfl | rfl | rfl
      · exact not_mem_utf8 (by decide) rfl hname.colon
      · decide
      · exact fun h => (display_clean gid h).1 rfl
      · exact List.not_mem_nil
    · exact List.cons_ne_nil _ _
  have hlast : ∀ b,
      (separator :: ((utf8 ['x'] ++ [separator] ++ utf8 (display gid)) ++ [separator])).getLast? =
      some b → ColonFile.isAsciiWhitespace b = false := by
    intro b hb
    rw [← List.cons_append, List.getLast?_append_of_ne_nil _ (List.cons_ne_nil _ _)] at hb
    rw [← Option.some.inj hb]
    decide
  have hread := onEntry_named (fun _ _ text => ((text.splitOn separator).headD [],
    parseId (text.splitOn separator)[2]?)) hname hlast
  rw [← hline, hfields] at hread
  refine hread.trans ?_
  simp [parseId_display hgid]

theorem groupLine_oneLine {name : Text} (gid : ℕ) (hname : Nameable name) :
    newline ∉ utf8 (groupLine name gid) := by
  have hnewline : newline ∉ utf8 name := not_mem_utf8 (by decide) rfl hname.newline
  have hgid : newline ∉ utf8 (display gid) := fun h => (display_clean gid h).2 rfl
  have hx : newline ∉ utf8 ":x:".toList := by decide
  have hcolon : newline ∉ utf8 [':'] := by decide
  unfold groupLine
  simp only [ColonFile.utf8_append, List.mem_append, not_or]
  exact ⟨⟨⟨hnewline, hx⟩, hgid⟩, hcolon⟩

theorem groupEntryTaken_eq_false {group : Bytes} {name : Text} {gid : ℕ} :
    groupEntryTaken group name gid = false ↔
      ∀ entry ∈ groupEntries group, NothingShared entry (utf8 name, some gid) := by
  unfold groupEntryTaken groupEntries NothingShared
  rw [List.any_eq_false]
  simp only [List.mem_filterMap]
  constructor
  · rintro h entry ⟨line, hline, hparse⟩
    have hnot := h line hline
    rw [hparse] at hnot
    simpa using hnot
  · intro h line hline
    cases hparse : parseGroupEntry line with
    | none => simp
    | some entry => simpa using h entry ⟨line, hline, hparse⟩

/-- What entries become when more are added that share nothing with any other. -/
def Joined (before after : List (Bytes × Option ℕ)) : Prop :=
  ∃ added, after = before ++ added ∧ added.Pairwise NothingShared ∧
    ∀ entry ∈ before, ∀ other ∈ added, NothingShared entry other

theorem Joined.refl (entries : List (Bytes × Option ℕ)) : Joined entries entries :=
  ⟨[], by simp, .nil, by simp⟩

theorem Joined.trans {a b c : List (Bytes × Option ℕ)} (hab : Joined a b)
    (hbc : Joined b c) : Joined a c := by
  obtain ⟨first, rfl, hfirst, hbefore⟩ := hab
  obtain ⟨second, rfl, hsecond, hmiddle⟩ := hbc
  refine ⟨first ++ second, List.append_assoc .., List.pairwise_append.mpr ⟨hfirst, hsecond, ?_⟩, ?_⟩
  · exact fun entry hentry other hother =>
      hmiddle entry (List.mem_append_right _ hentry) other hother
  · intro entry hentry other hother
    rcases List.mem_append.mp hother with hother | hother
    · exact hbefore entry hentry other hother
    · exact hmiddle entry (List.mem_append_left _ hentry) other hother

/-- One round of the loop of `with_additional_groups`. -/
def groupAppended (contents : Bytes) (user : AdditionalUser) : Bytes :=
  if groupEntryTaken contents user.name.toList user.gid then contents
  else withLineAppended contents (groupLine user.name.toList user.gid)

theorem groupAppended_joined {user : AdditionalUser} (h : Writable user) (contents : Bytes) :
    Joined (groupEntries contents) (groupEntries (groupAppended contents user)) := by
  have hname := isUserName_nameable h.name
  unfold groupAppended
  split
  · exact Joined.refl _
  · next hfree =>
      rw [Bool.not_eq_true, groupEntryTaken_eq_false] at hfree
      refine ⟨[(utf8 user.name.toList, some user.gid)], ?_, by simp, by simpa using hfree⟩
      have hlines := ColonFile.map_lines_appended parseGroupEntry_newline contents
        (groupLine_oneLine user.gid hname)
      unfold groupEntries withLineAppended
      have hmap : ∀ ls : List Bytes,
          ls.filterMap parseGroupEntry = (ls.map parseGroupEntry).filterMap id := by
        intro ls
        rw [List.filterMap_map]
        rfl
      rw [hmap, hlines, List.filterMap_append, ← hmap, parseGroupEntry_groupLine hname h.gid]
      rfl

theorem groupAppended_lookup {user : AdditionalUser} (h : Writable user) {contents : Bytes}
    {selected : Bytes × Option ℕ → Bool} {found : ℕ × Bytes × Option ℕ}
    (hfound : firstGroupEntry contents selected = some found) :
    firstGroupEntry (groupAppended contents user) selected = some found := by
  unfold groupAppended
  split
  · exact hfound
  · have hfirst := ColonFile.firstFrom_appended parseGroupEntry_newline selected contents
      (groupLine_oneLine user.gid (isUserName_nameable h.name))
    unfold firstGroupEntry at hfound ⊢
    rw [hfound] at hfirst
    exact hfirst

theorem withAdditionalGroups_run {users : List AdditionalUser} (h : ∀ u ∈ users, Writable u)
    (group : Bytes) :
    Joined (groupEntries group) (groupEntries (withAdditionalGroups group users)) ∧
      ∀ selected found, firstGroupEntry group selected = some found →
        firstGroupEntry (withAdditionalGroups group users) selected = some found := by
  unfold withAdditionalGroups
  induction users generalizing group with
  | nil => exact ⟨Joined.refl _, fun _ _ hfound => hfound⟩
  | cons user users ih =>
      have hstep := groupAppended_joined (h user List.mem_cons_self) group
      obtain ⟨hjoined, hlookup⟩ :=
        ih (fun u hu => h u (List.mem_cons_of_mem _ hu)) (groupAppended group user)
      refine ⟨hstep.trans hjoined, fun selected found hfound => hlookup selected found ?_⟩
      exact groupAppended_lookup (h user List.mem_cons_self) hfound

/-- Additional users are added exactly when nobody has a uid or a name of theirs; then each is found
by both, and whoever was found before still is.  Their groups disturb no lookup, and no two entries
come to share anything. -/
theorem additional_users_found {container : String} {users : List AdditionalUser}
    (hvalid : validateAdditionalUsers container [] users = .ok ())
    (hids : ∀ u ∈ users, u.uid ≤ maxId ∧ u.gid ≤ maxId) (passwd group : Bytes) :
    ((∃ contents, withAdditionalUsers passwd users = .ok contents) ↔
      ∀ u ∈ users, ∀ entry ∈ passwdEntries passwd,
        entry.uid ≠ some u.uid ∧ entry.name ≠ utf8 u.name.toList) ∧
      (∀ contents, withAdditionalUsers passwd users = .ok contents →
        (∀ u ∈ users, FindsOwnLine contents u) ∧ ∀ selected found,
          firstPasswdEntry passwd selected = some found →
            firstPasswdEntry contents selected = some found) ∧
      (∀ selected found, firstGroupEntry group selected = some found →
        firstGroupEntry (withAdditionalGroups group users) selected = some found) ∧
      Joined (groupEntries group) (groupEntries (withAdditionalGroups group users)) := by
  obtain ⟨hnames, happart, _⟩ := validateAdditionalUsers_ok hvalid
  have hwritable : ∀ u ∈ users, Writable u :=
    fun u hu => ⟨hnames u hu, (hids u hu).1, (hids u hu).2⟩
  obtain ⟨hjoined, hlookup⟩ := withAdditionalGroups_run hwritable group
  refine ⟨?_, ?_, hlookup, hjoined⟩
  · unfold withAdditionalUsers
    simp only [foldlM_withAdditionalUser, unknown_iff]
    exact ⟨fun ⟨_, h, _⟩ => h, fun h => ⟨_, h, rfl⟩⟩
  · intro contents hok
    obtain ⟨hunknown, rfl⟩ := foldlM_withAdditionalUser.mp hok
    exact ⟨fun u hu => findsOwnLine hwritable happart hu (hunknown u hu),
      fun selected found hfound => lookup_kept hwritable hfound⟩

/-- A user beside a root. -/
theorem additional_users_found_ada :
    validateAdditionalUsers "web" [] [⟨"ada", 1000, 1000⟩] = .ok () ∧
      ∃ contents,
        withAdditionalUsers (utf8 "root:x:0:0".toList) [⟨"ada", 1000, 1000⟩] = .ok contents := by
  have hvalid : validateAdditionalUsers "web" [] [⟨"ada", 1000, 1000⟩] = .ok () := by decide
  have hids : ∀ u ∈ [(⟨"ada", 1000, 1000⟩ : AdditionalUser)], u.uid ≤ maxId ∧ u.gid ≤ maxId := by
    intro u hu
    rw [List.mem_singleton.mp hu]
    exact ⟨by decide, by decide⟩
  refine ⟨hvalid, (additional_users_found hvalid hids (utf8 "root:x:0:0".toList)
    (utf8 "staff".toList)).1.mpr ?_⟩
  intro u hu
  rw [List.mem_singleton.mp hu]
  decide

end Ratect
