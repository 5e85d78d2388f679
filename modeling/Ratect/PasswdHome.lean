import Ratect.HostPaths
import Ratect.Passwd

/-! # The home of a user

`edit_passwd_home` and `edit_passwd_for_host_user`: the home of the first entry a user selects is
replaced where it stands (`parsePasswdEntry_homed`), or a line with the home is appended
(`firstPasswdEntry_appended`), and the selection finds the home afterwards (`HomeEdit`), so that a
second edit has nothing to do.

A line is read without the blanks around it.  A home that ends in a space is therefore not read back
from a line that ends with it (`home_not_always_found`). -/

namespace Ratect

open ColonFile (Bytes utf8 newline separator)

/-- The home field of an entry of a file, given where its line starts. -/
def homeField (file : Bytes) (position : ℕ) (entry : PasswdEntry) : Bytes :=
  (file.drop (position + entry.homeStart)).take (entry.homeEnd - entry.homeStart)

/-- A line with another home in its entry, after the separators that it lacks. -/
def homed (line : Bytes) (entry : PasswdEntry) (home : Text) : Bytes :=
  line.take entry.homeStart ++ List.replicate entry.separatorsNeeded separator ++ utf8 home ++
    line.drop entry.homeEnd

/-- What an edit makes of a file. -/
inductive HomeEdit (selected : PasswdEntry → Bool) (home : Text) (passwd contents : Bytes) : Prop
  /-- The first selected entry has the home instead of its own, and the other lines are as they
  were. -/
  | replaced {pre post : List Bytes} {line : Bytes} {entry found : PasswdEntry} :
      ColonFile.lines passwd = pre ++ line :: post →
      firstPasswdEntry passwd selected = some (pre.flatten.length, entry) →
      parsePasswdEntry line = some entry →
      contents = pre.flatten ++ homed line entry home ++ post.flatten →
      firstPasswdEntry contents selected = some (pre.flatten.length, found) →
      found.name = entry.name ∧ found.uid = entry.uid ∧ found.gid = entry.gid ∧
        found.separatorsNeeded = 0 →
      homeField contents pre.flatten.length found = utf8 home →
      (ColonFile.lines contents).map parsePasswdEntry =
        pre.map parsePasswdEntry ++ some found :: post.map parsePasswdEntry →
      HomeEdit selected home passwd contents
  /-- No entry was selected, and the line of one that is stands at the end of the file. -/
  | appended {name : Text} {uid gid : ℕ} {found : PasswdEntry} :
      firstPasswdEntry passwd selected = none →
      contents = ColonFile.ended passwd ++ utf8 (passwdLine name uid gid home) ++ [newline] →
      firstPasswdEntry contents selected = some ((ColonFile.ended passwd).length, found) →
      found.name = utf8 name ∧ found.uid = some uid ∧ found.gid = some gid ∧
        found.separatorsNeeded = 0 →
      homeField contents (ColonFile.ended passwd).length found = utf8 home →
      (ColonFile.lines contents).map parsePasswdEntry =
        (ColonFile.lines passwd).map parsePasswdEntry ++ [some found] →
      HomeEdit selected home passwd contents

/-- A home that ends in a space goes only where a separator follows it. -/
def RoomFor (passwd : Bytes) (selected : PasswdEntry → Bool) (home : Text) : Prop :=
  ∀ position entry, firstPasswdEntry passwd selected = some (position, entry) →
    home.getLast? = some ' ' →
    (passwd.drop (position + entry.homeEnd)).head? = some separator

/-- The host user's own name is written. -/
def WritesName (passwd : Bytes) (user : CurrentUser) : Prop :=
  firstPasswdEntry passwd (hasUid user.uid) = none ∧
    firstPasswdEntry passwd (hasName user.username) = none

/-! ### Homes -/

theorem checkHomeDirectory_ok {field : String} {home : Text}
    (h : checkHomeDirectory field home = .ok ()) : HomeText home := by
  unfold checkHomeDirectory at h
  split at h
  · cases h
  · next hslash =>
      split at h
      · cases h
      · next hplain =>
          rw [not_or] at hplain
          refine ⟨not_not.mp hslash, hplain.1, fun c hc => ?_⟩
          cases hcontrol : isControl c with
          | false => rfl
          | true => exact absurd (List.any_eq_true.mpr ⟨c, hc, hcontrol⟩) hplain.2

/-- The only blank that a home can end in is a space. -/
theorem HomeText.last {home : Text} (h : HomeText home) (hspace : home.getLast? ≠ some ' ')
    {b : UInt8} (hb : (utf8 home).getLast? = some b) : ColonFile.isAsciiWhitespace b = false := by
  cases hblank : ColonFile.isAsciiWhitespace b with
  | false => rfl
  | true =>
      obtain ⟨c, hc, hbc⟩ := ColonFile.utf8_getLast hb (isAsciiWhitespace_lt hblank)
      have hplain : isControl c = false := h.plain c (List.mem_of_getLast? hc)
      simp only [ColonFile.isAsciiWhitespace, List.mem_cons, List.not_mem_nil, or_false,
        decide_eq_true_eq] at hblank
      rcases hblank with rfl | rfl | rfl | rfl | rfl
      · exact absurd (eq_of_toNat hbc (d := ' ') rfl ▸ hc) hspace
      · exact absurd (eq_of_toNat hbc (d := '\t') rfl ▸ hplain) (by decide)
      · exact absurd (eq_of_toNat hbc (d := '\n') rfl ▸ hplain) (by decide)
      · exact absurd (eq_of_toNat hbc (d := '\x0c') rfl ▸ hplain) (by decide)
      · exact absurd (eq_of_toNat hbc (d := '\r') rfl ▸ hplain) (by decide)

/-! ### One line -/

/-- A line with an entry, by the parts that an edit tells apart. -/
structure LineParts where
  lead : Bytes
  text : Bytes
  trail : Bytes
  five : List Bytes
  kept : Bytes
  old : Bytes
  rest : Bytes
  missing : ℕ
  blankLead : ColonFile.Blank lead
  blankTrail : ColonFile.Blank trail
  trimmed : ColonFile.Trimmed text
  ne_nil : text ≠ []
  comment : text.head? ≠ some 35
  shape : Shape text five kept old rest missing

namespace LineParts

variable (p : LineParts) (home : Text)

/-- The line. -/
def line : Bytes := p.lead ++ p.text ++ p.trail

/-- What it says. -/
def entry : PasswdEntry := shapedEntry p.lead.length p.five p.kept p.old p.missing

/-- The text with another home. -/
def newText : Bytes := ColonFile.joined p.five ++ utf8 home ++ p.rest

theorem exists_parts {line : Bytes} {entry : PasswdEntry} (h : parsePasswdEntry line = some entry) :
    ∃ p : LineParts, line = p.line ∧ entry = p.entry := by
  obtain ⟨lead, text, trail, hline, hlead, htrail, htrimmed, hne, hcomment, rfl⟩ := onEntry_some h
  obtain ⟨five, kept, old, rest, missing, hshape, hentry⟩ := exists_shape lead.length text
  exact ⟨⟨lead, text, trail, five, kept, old, rest, missing, hlead, htrail, htrimmed,
    hne, hcomment, hshape⟩,
    hline, hentry⟩

theorem line_eq : p.line = (p.lead ++ p.kept ++ p.old) ++ (p.rest ++ p.trail) := by
  rw [line, p.shape.whole]
  simp only [List.append_assoc]

theorem take_home : p.line.take p.entry.homeStart = p.lead ++ p.kept := by
  have hstart : p.entry.homeStart = (p.lead ++ p.kept).length := by
    rw [List.length_append]
    rfl
  rw [hstart, p.line_eq, List.append_assoc (p.lead ++ p.kept), List.take_left]

theorem drop_home : p.line.drop p.entry.homeEnd = p.rest ++ p.trail := by
  have hend : p.entry.homeEnd = (p.lead ++ p.kept ++ p.old).length := by
    rw [List.length_append, List.length_append]
    rfl
  rw [hend, p.line_eq, List.drop_left]

theorem homed_eq : homed p.line p.entry home = p.lead ++ p.newText home ++ p.trail := by
  have hmissing : p.entry.separatorsNeeded = p.missing := rfl
  rw [homed, p.take_home, p.drop_home, hmissing, newText, ← p.shape.padded]
  simp only [List.append_assoc]

theorem five_ne_nil : ColonFile.joined p.five ≠ [] := by
  have hlength := p.shape.length
  cases hfive : p.five with
  | nil =>
      rw [hfive] at hlength
      cases hlength
  | cons f five => simp [ColonFile.joined]

/-- The text begins as it did. -/
theorem newText_head : (p.newText home).head? = p.text.head? := by
  have hkept : p.kept ≠ [] := by
    intro hnil
    by_cases hmissing : p.missing = 0
    · have hpadded := p.shape.padded
      rw [hnil, hmissing] at hpadded
      exact p.five_ne_nil hpadded.symm
    · obtain ⟨hold, hrest⟩ := p.shape.short hmissing
      have hwhole := p.shape.whole
      rw [hnil, hold, hrest] at hwhole
      exact p.ne_nil hwhole
  rw [newText, ← p.shape.padded, p.shape.whole, List.append_assoc,
    List.append_assoc, List.append_assoc, List.head?_append_of_ne_nil _ hkept,
    List.head?_append_of_ne_nil _ hkept]

theorem newText_ne_nil : p.newText home ≠ [] := by
  rw [newText, List.append_assoc]
  exact List.append_ne_nil_of_left_ne_nil p.five_ne_nil _

variable {home}

/-- What follows a home that ends in a space. -/
theorem rest_ne_nil (hroom : (p.rest ++ p.trail).head? = some separator) : p.rest ≠ [] := by
  intro hnil
  rw [hnil, List.nil_append] at hroom
  exact absurd (p.blankTrail _ (List.mem_of_head? hroom)) (by decide)

theorem newText_trimmed (hhome : HomeText home)
    (hroom : home.getLast? = some ' ' → (p.rest ++ p.trail).head? = some separator) :
    ColonFile.Trimmed (p.newText home) := by
  refine ⟨fun b hb => p.trimmed.head b (p.newText_head home ▸ hb), fun b hb => ?_⟩
  by_cases hrest : p.rest = []
  · have hlast : (p.newText home).getLast? = (utf8 home).getLast? := by
      rw [newText, hrest, List.append_nil,
        List.getLast?_append_of_ne_nil _ (ColonFile.utf8_ne_nil hhome.ne_nil)]
    have hspace : home.getLast? ≠ some ' ' := fun h => p.rest_ne_nil (hroom h) hrest
    exact hhome.last hspace (hlast ▸ hb)
  · have hlast : (p.newText home).getLast? = p.text.getLast? := by
      rw [newText, p.shape.whole, List.getLast?_append_of_ne_nil _ hrest,
        List.getLast?_append_of_ne_nil _ hrest]
    exact p.trimmed.last b (hlast ▸ hb)

theorem newText_shape (hhome : HomeText home) :
    Shape (p.newText home) p.five (ColonFile.joined p.five) (utf8 home) p.rest 0 :=
  ⟨rfl, by simp, p.shape.length, p.shape.clean, hhome.clean, p.shape.after, fun h => absurd rfl h⟩

end LineParts

/-- The entry of a line that was given a home. -/
def rehomed (entry : PasswdEntry) (home : Text) : PasswdEntry :=
  { entry with
    homeStart := entry.homeStart + entry.separatorsNeeded
    homeEnd := entry.homeStart + entry.separatorsNeeded + (utf8 home).length
    separatorsNeeded := 0 }

/-- The line says what it said, but for the home. -/
theorem parsePasswdEntry_homed {line : Bytes} {entry : PasswdEntry} {home : Text}
    (hparse : parsePasswdEntry line = some entry) (hhome : HomeText home)
    (hroom : home.getLast? = some ' ' → (line.drop entry.homeEnd).head? = some separator) :
    parsePasswdEntry (homed line entry home) = some (rehomed entry home) := by
  obtain ⟨p, rfl, rfl⟩ := LineParts.exists_parts hparse
  rw [p.drop_home] at hroom
  have hcomment : (p.newText home).head? ≠ some 35 := p.newText_head home ▸ p.comment
  have hkept : (ColonFile.joined p.five).length = p.kept.length + p.missing := by
    rw [← p.shape.padded, List.length_append, List.length_replicate]
  rw [p.homed_eq]
  unfold parsePasswdEntry
  rw [onEntry_eq passwdEntryOf p.blankLead p.blankTrail (p.newText_trimmed hhome hroom)
    (p.newText_ne_nil home),
    if_neg hcomment, passwdEntryOf_full (p.newText_shape hhome)]
  unfold rehomed LineParts.entry shapedEntry
  rw [hkept]
  simp only [Nat.add_assoc]

theorem home_le {line : Bytes} {entry : PasswdEntry} (hparse : parsePasswdEntry line = some entry) :
    entry.homeStart ≤ entry.homeEnd ∧ entry.homeEnd ≤ line.length := by
  obtain ⟨p, rfl, rfl⟩ := LineParts.exists_parts hparse
  rw [p.line_eq]
  unfold LineParts.entry shapedEntry
  simp only [List.length_append]
  omega

/-- The home of a line that was given one. -/
theorem homeField_homed {line : Bytes} {entry : PasswdEntry} (home : Text)
    (hparse : parsePasswdEntry line = some entry) (pre post : Bytes) :
    homeField (pre ++ homed line entry home ++ post) pre.length
      (rehomed entry home) = utf8 home := by
  obtain ⟨hstart, hend⟩ := home_le hparse
  have hfront : pre.length + (entry.homeStart + entry.separatorsNeeded) =
      (pre ++ line.take entry.homeStart ++
        List.replicate entry.separatorsNeeded separator).length := by
    rw [List.length_append, List.length_append, List.length_take, List.length_replicate]
    omega
  have hsplit : pre ++ homed line entry home ++ post =
      (pre ++ line.take entry.homeStart ++ List.replicate entry.separatorsNeeded separator) ++
        (utf8 home ++ (line.drop entry.homeEnd ++ post)) := by
    rw [homed]
    simp only [List.append_assoc]
  unfold homeField rehomed
  dsimp only
  rw [Nat.add_sub_cancel_left, hfront, hsplit, List.drop_left, List.take_left]

/-! ### One file -/

/-- The edit of a file is the edit of one of its lines. -/
theorem withPasswdHome_line {line : Bytes} {entry : PasswdEntry}
    (hparse : parsePasswdEntry line = some entry) (home : Text) (pre post : Bytes) :
    withPasswdHome (pre ++ line ++ post) pre.length entry home =
      pre ++ homed line entry home ++ post := by
  obtain ⟨hstart, hend⟩ := home_le hparse
  have htake : (pre ++ line ++ post).take (pre.length + entry.homeStart) =
      pre ++ line.take entry.homeStart := by
    rw [List.append_assoc, List.take_length_add_append, List.take_append_of_le_length (by omega)]
  have hdrop : (pre ++ line ++ post).drop (pre.length + entry.homeEnd) =
      line.drop entry.homeEnd ++ post := by
    rw [List.append_assoc, List.drop_length_add_append, List.drop_append_of_le_length hend]
  rw [withPasswdHome, htake, hdrop, homed]
  simp only [List.append_assoc]

/-- An edit that gives an entry the home it has changes nothing. -/
theorem withPasswdHome_self {file : Bytes} {position : ℕ} {entry : PasswdEntry} {home : Text}
    (hle : entry.homeStart ≤ entry.homeEnd) (hmissing : entry.separatorsNeeded = 0)
    (hhome : homeField file position entry = utf8 home) :
    withPasswdHome file position entry home = file := by
  have hdrop : file.drop (position + entry.homeEnd) =
      (file.drop (position + entry.homeStart)).drop (entry.homeEnd - entry.homeStart) := by
    rw [List.drop_drop]
    congr 1
    omega
  rw [withPasswdHome, hmissing, ← hhome, homeField, List.replicate_zero, List.append_nil, hdrop,
    List.append_assoc, List.take_append_drop, List.take_append_drop]

/-- What stands in a line, stands in the line with another home. -/
theorem lined_homed {pre post : List Bytes} {line : Bytes} {entry : PasswdEntry} {home : Text}
    (h : ColonFile.Lined (pre ++ line :: post)) (hparse : parsePasswdEntry line = some entry)
    (hhome : HomeText home) : ColonFile.Lined (pre ++ homed line entry home :: post) := by
  obtain ⟨p, rfl, rfl⟩ := LineParts.exists_parts hparse
  obtain ⟨body, ending, hline, hbody, hending, hreplace⟩ := h.parts
  -- The break that ends the line, if any, is among the blanks after its text.
  have htrail : ∃ trail', p.trail = trail' ++ ending ∧ body = p.lead ++ p.text ++ trail' := by
    rcases hending with hending | ⟨hending, _⟩
    · rw [LineParts.line, hending] at hline
      rw [hending]
      cases htrail : p.trail using List.reverseRecOn with
      | nil =>
          rw [htrail, List.append_nil] at hline
          have hlast : p.text.getLast? = some newline := by
            rw [← List.getLast?_append_of_ne_nil p.lead p.ne_nil, hline]
            simp
          exact absurd (p.trimmed.last _ hlast) (by decide)
      | append_singleton trail' b =>
          rw [htrail, ← List.append_assoc] at hline
          obtain ⟨hbody', hb⟩ := List.append_inj' hline rfl
          exact ⟨trail', by rw [hb], hbody'.symm⟩
    · rw [hending, List.append_nil] at hline
      exact ⟨p.trail, by rw [hending, List.append_nil], hline.symm⟩
  obtain ⟨trail', htrail', rfl⟩ := htrail
  have hnew : homed p.line p.entry home = (p.lead ++ p.newText home ++ trail') ++ ending := by
    rw [p.homed_eq, htrail', List.append_assoc, List.append_assoc, List.append_assoc]
  rw [hnew]
  refine hreplace _ ?_ ?_
  · intro hnil
    rw [List.append_eq_nil_iff, List.append_eq_nil_iff] at hnil
    exact p.newText_ne_nil home hnil.1.2
  · simp only [p.shape.whole, List.mem_append, not_or] at hbody
    have hfive : newline ∉ ColonFile.joined p.five := by
      rw [← p.shape.padded, List.mem_append, not_or]
      refine ⟨hbody.1.2.1.1, fun hmem => ?_⟩
      exact absurd (List.eq_of_mem_replicate hmem) (by decide)
    simp only [LineParts.newText, List.mem_append, not_or]
    exact ⟨⟨hbody.1.1, ⟨hfive, hhome.oneLine⟩, hbody.1.2.2⟩, hbody.2⟩

/-! ### Selections -/

/-- A selection that looks at names and uids only. -/
def ByNameOrUid (selected : PasswdEntry → Bool) : Prop :=
  ∀ a b : PasswdEntry, a.name = b.name → a.uid = b.uid → selected a = selected b

theorem selectsUser_byNameOrUid (user : Text) : ByNameOrUid (selectsUser user) := by
  intro a b hname huid
  unfold selectsUser
  rw [hname, huid]

theorem hasUid_byNameOrUid (uid : ℕ) : ByNameOrUid (hasUid uid) := by
  intro a b _ huid
  unfold hasUid
  rw [huid]

/-- The room for a home, at the line it goes to. -/
theorem RoomFor.line {pre post : List Bytes} {line : Bytes} {entry : PasswdEntry} {home : Text}
    (h : home.getLast? = some ' ' →
      ((pre ++ line :: post).flatten.drop (pre.flatten.length + entry.homeEnd)).head? =
        some separator)
    (hlined : ColonFile.Lined (pre ++ line :: post)) (hparse : parsePasswdEntry line = some entry) :
    home.getLast? = some ' ' → (line.drop entry.homeEnd).head? = some separator := by
  intro hspace
  have hhead := h hspace
  have hle := (home_le hparse).2
  rw [List.flatten_append, List.flatten_cons, List.drop_length_add_append,
    List.drop_append_of_le_length hle] at hhead
  cases hdrop : line.drop entry.homeEnd with
  | cons b more =>
      rw [hdrop] at hhead
      exact hhead
  | nil =>
      -- Nothing follows the home, not even a break: the line is the last one.
      obtain ⟨p, rfl, rfl⟩ := LineParts.exists_parts hparse
      rw [p.drop_home] at hdrop
      obtain ⟨hrest, htrail⟩ := List.append_eq_nil_iff.mp hdrop
      obtain ⟨body, ending, hline, _, hending, _⟩ := hlined.parts
      rcases hending with rfl | ⟨_, rfl⟩
      · rw [LineParts.line, htrail, List.append_nil] at hline
        have hlast : p.text.getLast? = some newline := by
          rw [← List.getLast?_append_of_ne_nil p.lead p.ne_nil, hline]
          simp
        exact absurd (p.trimmed.last _ hlast) (by decide)
      · rw [p.drop_home, hrest, htrail] at hhead
        cases hhead

/-- The first selected entry gets the home. -/
theorem homeEdit_replaced {selected : PasswdEntry → Bool} (hselected : ByNameOrUid selected)
    {passwd : Bytes} {home : Text} (hhome : HomeText home) (hroom : RoomFor passwd selected home)
    {position : ℕ} {entry : PasswdEntry}
    (hfirst : firstPasswdEntry passwd selected = some (position, entry)) :
    HomeEdit selected home passwd (withPasswdHome passwd position entry home) := by
  have hspace := hroom position entry hfirst
  obtain ⟨pre, line, post, hlines, hpre, hparse, hsel, hposition⟩ := ColonFile.firstFrom_some hfirst
  rw [Nat.zero_add] at hposition
  subst hposition
  have hlined : ColonFile.Lined (pre ++ line :: post) := hlines ▸ ColonFile.Lined.of_lines passwd
  have hfile : passwd = pre.flatten ++ line ++ post.flatten := by
    rw [← ColonFile.lines_flatten passwd, hlines, List.flatten_append,
      List.flatten_cons, List.append_assoc]
  have hparse' : parsePasswdEntry (homed line entry home) = some (rehomed entry home) := by
    refine parsePasswdEntry_homed hparse hhome (RoomFor.line ?_ hlined hparse)
    rw [← hlines, ColonFile.lines_flatten]
    exact hspace
  have hcontents : withPasswdHome passwd pre.flatten.length entry home =
      pre.flatten ++ homed line entry home ++ post.flatten := by
    rw [hfile]
    exact withPasswdHome_line hparse home pre.flatten post.flatten
  have hlines' : ColonFile.lines (withPasswdHome passwd pre.flatten.length entry home) =
      pre ++ homed line entry home :: post := by
    rw [hcontents, List.append_assoc, ← List.flatten_cons, ← List.flatten_append]
    exact ColonFile.lines_of_lined (lined_homed hlined hparse hhome)
  have hsel' : selected (rehomed entry home) = true :=
    hselected (rehomed entry home) entry rfl rfl ▸ hsel
  have hfound : firstPasswdEntry (withPasswdHome passwd pre.flatten.length entry home) selected =
      some (pre.flatten.length, rehomed entry home) := by
    rw [firstPasswdEntry, hlines', ColonFile.firstFrom_append,
      ColonFile.firstFrom_none.mpr hpre, Option.none_or,
      ColonFile.firstFrom_cons hparse' hsel', Nat.zero_add]
  refine .replaced hlines hfirst hparse hcontents hfound ⟨rfl, rfl, rfl, rfl⟩ ?_ ?_
  · rw [hcontents]
    exact homeField_homed home hparse pre.flatten post.flatten
  · rw [hlines', List.map_append, List.map_cons, hparse']

/-- An entry with the home is appended. -/
theorem homeEdit_appended {selected : PasswdEntry → Bool} {passwd : Bytes} {name home : Text}
    {uid gid : ℕ} (hname : Nameable name) (huid : uid ≤ maxId) (hgid : gid ≤ maxId)
    (hhome : HomeText home) (hnone : firstPasswdEntry passwd selected = none)
    (hsel : selected (writtenEntry name uid gid home) = true) :
    HomeEdit selected home passwd (withPasswdEntryAppended passwd name uid gid home) := by
  have hfound := firstPasswdEntry_appended hname huid hgid hhome passwd selected
  rw [hnone, Option.none_or, if_pos hsel] at hfound
  refine .appended hnone rfl hfound ⟨rfl, rfl, rfl, rfl⟩ ?_
    (entries_appended hname huid hgid hhome passwd)
  have hfile : withPasswdEntryAppended passwd name uid gid home =
      (ColonFile.ended passwd ++ ColonFile.joined (writtenFields name uid gid)) ++
        (utf8 home ++ (utf8 ":/bin/sh".toList ++ [newline])) := by
    rw [withPasswdEntryAppended, withLineAppended, utf8_passwdLine]
    simp only [List.append_assoc]
  unfold homeField writtenEntry
  dsimp only
  rw [Nat.add_sub_cancel_left, hfile, ← List.length_append, List.drop_left, List.take_left]

/-- After an edit, the selection has an entry with the home. -/
theorem HomeEdit.found {selected : PasswdEntry → Bool} {home : Text} {passwd contents : Bytes}
    (h : HomeEdit selected home passwd contents) : ∃ position entry,
      firstPasswdEntry contents selected = some (position, entry) ∧
        withPasswdHome contents position entry home = contents := by
  have hself : ∀ {position : ℕ} {entry : PasswdEntry},
      firstPasswdEntry contents selected = some (position, entry) → entry.separatorsNeeded = 0 →
      homeField contents position entry = utf8 home →
        withPasswdHome contents position entry home = contents := by
    intro position entry hfirst hmissing hfield
    obtain ⟨_, _, _, _, _, hparse, _, _⟩ := ColonFile.firstFrom_some hfirst
    exact withPasswdHome_self (home_le hparse).1 hmissing hfield
  cases h with
  | replaced _ _ _ _ hfound hsame hfield _ => exact ⟨_, _, hfound, hself hfound hsame.2.2.2 hfield⟩
  | appended _ _ hfound hsame hfield _ => exact ⟨_, _, hfound, hself hfound hsame.2.2.2 hfield⟩

/-! ### The two edits -/

theorem parseUnsigned_le {max n : ℕ} {t : Text} (h : parseUnsigned max t = some n) : n ≤ max := by
  unfold parseUnsigned at h
  simpa using (Option.filter_eq_some_iff.mp h).2

theorem configuredUid_le {user : Text} {uid : ℕ}
    (h : configuredUid user = some uid) : uid ≤ maxId := by
  unfold configuredUid at h
  split at h
  · rw [← Option.some.inj h]
    exact Nat.zero_le _
  · exact parseUnsigned_le h

theorem display_nameable (n : ℕ) : Nameable (display n) := by
  have hdigit : ∀ c ∈ display n, ∀ d : Char, d.isDigit = false → c ≠ d := by
    rintro c hc d hd rfl
    rw [display_isDigit hc] at hd
    cases hd
  refine ⟨fun h => hdigit _ h ':' (by decide) rfl, fun h => hdigit _ h '\n' (by decide) rfl,
    fun c hc hmem => ?_⟩
  have hnot : ∀ d ∈ [' ', '\t', '\n', '\x0c', '\r', '#'],
      d.isDigit = false := by simp [Char.isDigit]
  exact hdigit c (List.mem_of_head? hc) c (hnot c hmem) rfl

theorem root_nameable : Nameable "root".toList := by
  refine ⟨by decide, by decide, fun c hc => ?_⟩
  rw [← Option.some.inj hc]
  decide

variable {home : Text}

/-- A configured user who has an entry, or who is a uid. -/
theorem editPasswdHome_edit (hhome : HomeText home) (passwd : Bytes) (configuredUser : Text)
    (hroom : RoomFor passwd (selectsUser (splitConfiguredUser configuredUser).1) home)
    (hsome : firstPasswdEntry passwd (selectsUser (splitConfiguredUser configuredUser).1) = none →
      configuredUid (splitConfiguredUser configuredUser).1 ≠ none) :
    HomeEdit (selectsUser (splitConfiguredUser configuredUser).1) home passwd
      (editPasswdHome passwd configuredUser home).contents := by
  unfold editPasswdHome
  generalize splitConfiguredUser configuredUser = parts at hroom hsome ⊢
  obtain ⟨user, group⟩ := parts
  dsimp only at hroom hsome ⊢
  cases hfirst : firstPasswdEntry passwd (selectsUser user) with
  | some found =>
      obtain ⟨position, entry⟩ := found
      exact homeEdit_replaced (selectsUser_byNameOrUid user) hhome hroom hfirst
  | none =>
      dsimp only
      cases huid : configuredUid user with
      | none => exact absurd huid (hsome hfirst)
      | some uid =>
          dsimp only
          have hgid : (parseUnsigned maxId group).getD 0 ≤ maxId := by
            cases hgroup : parseUnsigned maxId group with
            | none => exact Nat.zero_le _
            | some gid => exact parseUnsigned_le hgroup
          have hname : Nameable (if uid = 0 then "root".toList else display uid) := by
            split
            · exact root_nameable
            · exact display_nameable uid
          refine homeEdit_appended hname (configuredUid_le huid) hgid hhome hfirst ?_
          unfold selectsUser
          rw [huid]
          exact beq_self_eq_true _

/-- A second edit changes nothing. -/
theorem editPasswdHome_again {passwd : Bytes} {configuredUser : Text}
    (h : HomeEdit (selectsUser (splitConfiguredUser configuredUser).1) home passwd
      (editPasswdHome passwd configuredUser home).contents) :
    (editPasswdHome (editPasswdHome passwd configuredUser home).contents
      configuredUser home).contents =
      (editPasswdHome passwd configuredUser home).contents := by
  obtain ⟨position, entry, hfirst, hsame⟩ := h.found
  generalize (editPasswdHome passwd configuredUser home).contents = contents at hfirst hsame ⊢
  unfold editPasswdHome
  generalize splitConfiguredUser configuredUser = parts at hfirst ⊢
  obtain ⟨user, group⟩ := parts
  dsimp only at hfirst ⊢
  rw [hfirst]
  exact hsame

/-- The host user. -/
theorem editPasswdForHostUser_edit (hhome : HomeText home) (passwd : Bytes) (user : CurrentUser)
    (hroom : RoomFor passwd (hasUid user.uid) home)
    (hname : WritesName passwd user → Nameable user.username) :
    HomeEdit (hasUid user.uid) home passwd (editPasswdForHostUser passwd user home) := by
  unfold editPasswdForHostUser
  cases hfirst : firstPasswdEntry passwd (hasUid user.uid) with
  | some found =>
      obtain ⟨position, entry⟩ := found
      exact homeEdit_replaced (hasUid_byNameOrUid _) hhome hroom hfirst
  | none =>
      have hwritten : Nameable
          (if (firstPasswdEntry passwd (hasName user.username)).isSome = true then
          display user.uid else user.username) := by
        split
        · exact display_nameable _
        · next htaken =>
            rw [Bool.not_eq_true, Option.isSome_eq_false_iff, Option.isNone_iff_eq_none] at htaken
            exact hname ⟨hfirst, htaken⟩
      refine homeEdit_appended hwritten (Nat.le_of_lt_succ user.uid.isLt)
        (Nat.le_of_lt_succ user.gid.isLt)
        hhome hfirst ?_
      exact beq_self_eq_true _

theorem editPasswdForHostUser_again {passwd : Bytes} {user : CurrentUser}
    (h : HomeEdit (hasUid user.uid) home passwd (editPasswdForHostUser passwd user home)) :
    editPasswdForHostUser (editPasswdForHostUser passwd user home) user home =
      editPasswdForHostUser passwd user home := by
  obtain ⟨position, entry, hfirst, hsame⟩ := h.found
  generalize editPasswdForHostUser passwd user home = contents at hfirst hsame ⊢
  unfold editPasswdForHostUser
  rw [hfirst]
  exact hsame

/-- A home that an edit gives is found afterwards, by the selection that it was given through, and
another edit changes nothing: for a configured user with an entry or a uid, and for the host user.
A configured user without either has nothing edited. -/
theorem passwd_home_edit {field : String} (hcheck : checkHomeDirectory field home = .ok ())
    (passwd : Bytes) :
    (∀ configuredUser : Text,
      RoomFor passwd (selectsUser (splitConfiguredUser configuredUser).1) home →
      if configuredUid (splitConfiguredUser configuredUser).1 = none ∧
          firstPasswdEntry passwd (selectsUser (splitConfiguredUser configuredUser).1) = none then
        editPasswdHome passwd configuredUser home = ⟨passwd, none⟩
      else
        HomeEdit (selectsUser (splitConfiguredUser configuredUser).1) home passwd
            (editPasswdHome passwd configuredUser home).contents ∧
          (editPasswdHome (editPasswdHome passwd configuredUser home).contents
            configuredUser home).contents =
            (editPasswdHome passwd configuredUser home).contents) ∧
      ∀ user : CurrentUser, RoomFor passwd (hasUid user.uid) home →
        (WritesName passwd user → Nameable user.username) →
        HomeEdit (hasUid user.uid) home passwd (editPasswdForHostUser passwd user home) ∧
          editPasswdForHostUser (editPasswdForHostUser passwd user home) user home =
            editPasswdForHostUser passwd user home := by
  have hhome := checkHomeDirectory_ok hcheck
  constructor
  · intro configuredUser hroom
    split
    · next hghost =>
        unfold editPasswdHome
        generalize splitConfiguredUser configuredUser = parts at hghost ⊢
        obtain ⟨user, group⟩ := parts
        dsimp only at hghost ⊢
        rw [hghost.2, hghost.1]
    · next hknown =>
        have hedit := editPasswdHome_edit hhome passwd configuredUser hroom fun hnone huid =>
          hknown ⟨huid, hnone⟩
        exact ⟨hedit, editPasswdHome_again hedit⟩
  · intro user hroom hname
    have hedit := editPasswdForHostUser_edit hhome passwd user hroom hname
    exact ⟨hedit, editPasswdForHostUser_again hedit⟩

/-- A root without a home, and a named user with one. -/
def samplePasswd : Bytes := utf8 "root:x:0:0\nweb:x:33:33:www:/var/www:/bin/sh\n".toList

theorem passwd_home_edit_sample :
    checkHomeDirectory "identity.home" "/home/me".toList = .ok () ∧
      HomeEdit (hasUid 0) "/home/me".toList samplePasswd
        (editPasswdForHostUser samplePasswd ⟨0, 0, "me".toList, "me".toList⟩
          "/home/me".toList) := by
  have hcheck : checkHomeDirectory "identity.home" "/home/me".toList = .ok () := by decide
  refine ⟨hcheck, ((passwd_home_edit hcheck samplePasswd).2
    ⟨0, 0, "me".toList, "me".toList⟩ ?_ ?_).1⟩
  · intro position entry _ hspace
    exact absurd hspace (by decide)
  · rintro ⟨hnone, _⟩
    exact absurd hnone (by decide)

/-- A name without an entry finds none; a space that ends a line is not read back, and every edit
adds one more; and a name that starts a comment names nobody. -/
theorem home_not_always_found :
    (¬ ∀ (passwd : Bytes) (configuredUser home : Text),
      checkHomeDirectory "identity.home" home = .ok () →
      (firstPasswdEntry (editPasswdHome passwd configuredUser home).contents
        (selectsUser (splitConfiguredUser configuredUser).1)).isSome = true) ∧
    (¬ ∀ (passwd : Bytes) (configuredUser home : Text),
      checkHomeDirectory "identity.home" home = .ok () →
      (editPasswdHome (editPasswdHome passwd configuredUser home).contents
        configuredUser home).contents =
        (editPasswdHome passwd configuredUser home).contents) ∧
    ¬ ∀ (passwd : Bytes) (user : CurrentUser) (home : Text),
      checkHomeDirectory "identity.home" home = .ok () →
      (firstPasswdEntry (editPasswdForHostUser passwd user home) (hasUid user.uid)).isSome =
        true := by
  refine ⟨fun h => ?_, fun h => ?_, fun h => ?_⟩
  · exact absurd (h samplePasswd "ghost".toList "/home/me".toList (by decide)) (by decide)
  · exact absurd (h samplePasswd [] "/home/me ".toList (by decide)) (by decide)
  · exact absurd (h samplePasswd ⟨1000, 1000, "#me".toList, "me".toList⟩ "/home/me".toList
      (by decide)) (by decide)

end Ratect
