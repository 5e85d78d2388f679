import Ratect.ImageReference

/-! # The scanners of image references

Three scanners read image references besides the grammar: `split_image_reference` with what pulls
ask for (`docker.rs`), and `registry_hostname` (`registry_auth.rs`), whose result is the key that
credentials are looked up by.  Where the grammar reads a reference, they cut it at the same places
(`reference_parsers_agree`). -/

namespace Ratect.ImageReference

open GroupedRegex (char opt plus atLeast)

/-! ### The scanners -/

/-- `split_image_reference`: the repository and the tag, which the last colon after the last slash
separates. -/
def splitImageReference (value : Text) : Text × Option Text :=
  let repoStart := ((rfind '/' value).map (· + 1)).getD 0
  match rfind ':' (value.drop repoStart) with
  | some colon => (value.take (repoStart + colon), some (value.drop (repoStart + colon + 1)))
  | none => (value, none)

/-- `pull_request_reference`: what a pull asks for. -/
def pullRequestReference (value : Text) : Text × Option Text :=
  if '@' ∈ value then (value, none)
  else
    let (repository, tag) := splitImageReference value
    (repository, some (tag.getD "latest".toList))

/-- What is before the first `@`, or the whole. -/
def beforeDigest (value : Text) : Text := ((splitOnce '@' value).map Prod.fst).getD value

/-- `digest_pinned_reference`: the repository at a digest. -/
def digestPinnedReference (value digest : Text) : Text :=
  let (repository, _) := splitImageReference (beforeDigest value)
  repository ++ '@' :: digest

def dockerIo : Text := "docker.io".toList

/-- `registry_hostname`. -/
def registryHostname (imageReference : Text) : Text :=
  match splitOnce '/' imageReference with
  | none => dockerIo
  | some (firstSegment, _) =>
      if firstSegment = "index.docker.io".toList then dockerIo
      else if firstSegment = "localhost".toList ∨ '.' ∈ firstSegment ∨ ':' ∈ firstSegment ∨
          firstSegment.any Char.isUpper = true then firstSegment
      else dockerIo

/-- `credential_resolution_warning`. -/
def credentialResolutionWarning (registry error : Text) : Text :=
  "Could not resolve credentials for registry '".toList ++ registry ++ "' (".toList ++ error ++
    "); proceeding without them.".toList

/-- `resolve_pull_credential`: what the resolver has for the image's registry, or the warning. -/
def resolvePullCredential {α : Type} (resolve : Text → Except Text (Option α)) (image : Text) :
    Option α × Option Text :=
  let registry := registryHostname image
  match resolve registry with
  | .ok credential => (credential, none)
  | .error error => (none, some (credentialResolutionWarning registry error))

/-- What the whole pattern is matched against: the domain and what it holds. -/
def normalised (lower : Lowercase) (name : Text) : Text :=
  (splitDockerDomain lower name).1 ++ '/' :: (splitDockerDomain lower name).2

/-! ### Directories -/

/-- No text, or one that ends with a slash. -/
def IsDirectory (t : Text) : Prop := t = [] ∨ ∃ front, t = front ++ ['/']

/-- The last component has no colon. -/
def Plain (name : Text) : Prop :=
  ∃ directory base, name = directory ++ base ∧ IsDirectory directory ∧ '/' ∉ base ∧ ':' ∉ base

theorem IsDirectory.append {a b : Text} (ha : IsDirectory a) (hb : IsDirectory b) :
    IsDirectory (a ++ b) := by
  rcases hb with rfl | ⟨front, rfl⟩
  · rwa [List.append_nil]
  · exact Or.inr ⟨a ++ front, (List.append_assoc _ _ _).symm⟩

/-- A directory that begins a text is in what is before its last component. -/
theorem IsDirectory.prefix_of {long rest front base : Text} (hlong : IsDirectory long)
    (h : long ++ rest = front ++ base) (hbase : '/' ∉ base) :
    ∃ middle, front = long ++ middle ∧ rest = middle ++ base := by
  rcases List.append_eq_append_iff.mp h with ⟨middle, hfront, hrest⟩ | ⟨extra, hextra, hb⟩
  · exact ⟨middle, hfront, hrest⟩
  · rcases hlong with rfl | ⟨start, rfl⟩
    · obtain ⟨rfl, rfl⟩ := List.append_eq_nil_iff.mp hextra.symm
      exact ⟨[], rfl, hb.symm⟩
    · rcases List.eq_nil_or_concat extra with rfl | ⟨init, c, rfl⟩
      · rw [List.append_nil] at hextra
        exact ⟨[], by rw [hextra, List.append_nil], hb.symm⟩
      · rw [List.concat_eq_append, ← List.append_assoc] at hextra
        have hc := (List.append_inj' hextra rfl).2
        refine absurd ?_ hbase
        rw [hb, ← List.singleton_inj.mp hc]
        simp

theorem IsDirectory.right {a b : Text} (h : IsDirectory (a ++ b)) : IsDirectory b := by
  rcases List.eq_nil_or_concat b with rfl | ⟨init, c, rfl⟩
  · exact Or.inl rfl
  · rw [List.concat_eq_append] at h ⊢
    rcases h with h | ⟨front, h⟩
    · simp at h
    · rw [← List.append_assoc] at h
      exact Or.inr ⟨init, by rw [(List.append_inj' h rfl).2]⟩

/-- Every text has its last component. -/
theorem exists_directory (t : Text) :
    ∃ directory base, t = directory ++ base ∧ IsDirectory directory ∧ '/' ∉ base := by
  induction t using List.reverseRecOn with
  | nil => exact ⟨[], [], rfl, Or.inl rfl, List.not_mem_nil⟩
  | append_singleton t c ih =>
      by_cases hc : c = '/'
      · subst hc
        exact ⟨t ++ ['/'], [], (List.append_nil _).symm, Or.inr ⟨t, rfl⟩, List.not_mem_nil⟩
      · obtain ⟨directory, base, rfl, hdirectory, hbase⟩ := ih
        refine ⟨directory, base ++ [c], by rw [List.append_assoc], hdirectory, ?_⟩
        simp [hbase, Ne.symm hc]

/-! ### The split at the tag -/

theorem repoStart_eq {directory rest : Text} (hdirectory : IsDirectory directory)
    (hrest : '/' ∉ rest) :
    ((rfind '/' (directory ++ rest)).map (· + 1)).getD 0 = directory.length := by
  rcases hdirectory with rfl | ⟨front, rfl⟩
  · rw [List.nil_append, rfind_of_not_mem hrest]
    rfl
  · rw [List.append_assoc, List.singleton_append, rfind_append hrest, List.length_append]
    rfl

/-- A tag after a plain name is found. -/
theorem splitImageReference_plain {name : Text} (hname : Plain name) {tag : Option Text}
    (htag : ∀ t ∈ tag, '/' ∉ t ∧ ':' ∉ t) :
    splitImageReference (name ++ tag.elim [] (':' :: ·)) = (name, tag) := by
  obtain ⟨directory, base, rfl, hdirectory, hslash, hcolon⟩ := hname
  have hrest : '/' ∉ base ++ tag.elim [] (':' :: ·) := by
    cases tag with
    | none => simpa using hslash
    | some t =>
        have ht := (htag t rfl).1
        simp [hslash, ht]
  unfold splitImageReference
  rw [List.append_assoc, repoStart_eq hdirectory hrest]
  dsimp only
  rw [List.drop_left' rfl]
  cases tag with
  | none =>
      have hnone : rfind ':' base = none := rfind_of_not_mem hcolon
      simp only [Option.elim_none, List.append_nil, hnone]
  | some t =>
      have hsome : rfind ':' (base ++ ':' :: t) = some base.length := rfind_append (htag t rfl).2
      have htake : (directory ++ (base ++ ':' :: t)).take (directory.length + base.length) =
          directory ++ base := by
        rw [← List.append_assoc, ← List.length_append, List.take_left' rfl]
      have hdrop : (directory ++ (base ++ ':' :: t)).drop
          (directory.length + base.length + 1) = t := by
        rw [← List.append_assoc, ← List.length_append, ← List.drop_drop, List.drop_left' rfl]
        rfl
      simp only [Option.elim_some, hsome, htake, hdrop]

/-! ### The normalised form -/

/-- Only what a name begins with is replaced, by the domain and what is implicit. -/
theorem normalised_spec (lower : Lowercase) (name : Text) :
    ∃ short long rest, name = short ++ rest ∧
    normalised lower name = long ++ rest ∧
    short ∈ [[], defaultDomain ++ ['/'], legacyDefaultDomain ++ ['/']] ∧
    long ∈ [[], defaultDomain ++ ['/'], defaultDomain ++ '/' :: officialRepoPrefix] := by
  unfold normalised splitDockerDomain
  by_cases hslash : '/' ∈ name
  · obtain ⟨head, tail, rfl, hhead⟩ := List.eq_append_cons_of_mem hslash
    rw [splitOnce_append hhead]
    dsimp only
    by_cases hlegacy : head = legacyDefaultDomain
    · rw [if_pos hlegacy, hlegacy]
      refine ⟨legacyDefaultDomain ++ ['/'], ?_⟩
      dsimp only
      split
      · exact ⟨defaultDomain ++ '/' :: officialRepoPrefix, tail, by simp, by simp, by simp, by simp⟩
      · exact ⟨defaultDomain ++ ['/'], tail, by simp, by simp, by simp, by simp⟩
    · rw [if_neg hlegacy]
      by_cases hexplicit : head = "localhost".toList ∨ '.' ∈ head ∨ ':' ∈ head ∨
        lower.apply head ≠ head
      · rw [if_pos hexplicit]
        dsimp only
        split
        · next hofficial =>
            rw [hofficial.1]
            exact ⟨defaultDomain ++ ['/'], defaultDomain ++ '/' :: officialRepoPrefix,
              tail, by simp, by simp,
              by simp,
              by simp⟩
        · exact ⟨[], [], head ++ '/' :: tail, rfl, rfl, by simp, by simp⟩
      · rw [if_neg hexplicit]
        dsimp only
        rw [if_neg fun h => h.2 hslash]
        exact ⟨[], defaultDomain ++ ['/'], head ++ '/' :: tail, rfl, by simp, by simp, by simp⟩
  · rw [splitOnce_of_not_mem hslash]
    dsimp only
    rw [if_pos ⟨rfl, hslash⟩]
    exact ⟨[], defaultDomain ++ '/' :: officialRepoPrefix, name, rfl, by simp, by simp, by simp⟩

/-- What follows a name without a slash stays as it is. -/
theorem splitDockerDomain_append (lower : Lowercase) (name : Text) {suffix : Text}
    (hsuffix : '/' ∉ suffix) :
    splitDockerDomain lower (name ++ suffix) =
      ((splitDockerDomain lower name).1, (splitDockerDomain lower name).2 ++ suffix) := by
  have hofficial : ∀ domain remote : Text,
      (if domain = defaultDomain ∧ '/' ∉ remote ++ suffix then
          (domain, officialRepoPrefix ++ (remote ++ suffix))
        else (domain, remote ++ suffix)) =
      ((if domain = defaultDomain ∧ '/' ∉ remote then (domain, officialRepoPrefix ++ remote)
        else (domain, remote)).1,
        (if domain = defaultDomain ∧ '/' ∉ remote then (domain, officialRepoPrefix ++ remote)
          else (domain, remote)).2 ++ suffix) := by
    intro domain remote
    have hremote : '/' ∉ remote ++ suffix ↔ '/' ∉ remote := by simp [hsuffix]
    simp only [hremote]
    split
    · rw [List.append_assoc]
    · rfl
  unfold splitDockerDomain
  by_cases hslash : '/' ∈ name
  · obtain ⟨head, tail, rfl, hhead⟩ := List.eq_append_cons_of_mem hslash
    rw [splitOnce_append hhead]
    rw [List.append_assoc, List.cons_append, splitOnce_append hhead]
    dsimp only
    by_cases hlegacy : head = legacyDefaultDomain
    · rw [if_pos hlegacy, if_pos hlegacy]
      exact hofficial defaultDomain tail
    · rw [if_neg hlegacy, if_neg hlegacy]
      by_cases hexplicit : head = "localhost".toList ∨ '.' ∈ head ∨ ':' ∈ head ∨
        lower.apply head ≠ head
      · rw [if_pos hexplicit, if_pos hexplicit]
        exact hofficial head tail
      · rw [if_neg hexplicit, if_neg hexplicit]
        have h := hofficial defaultDomain (head ++ '/' :: tail)
        rw [List.append_assoc, List.cons_append] at h
        exact h
  · have hname : '/' ∉ name ++ suffix := by simp [hslash, hsuffix]
    rw [splitOnce_of_not_mem hslash, splitOnce_of_not_mem hname]
    exact hofficial defaultDomain name

theorem normalised_append (lower : Lowercase) (name : Text) {suffix : Text}
    (hsuffix : '/' ∉ suffix) :
    normalised lower (name ++ suffix) = normalised lower name ++ suffix := by
  unfold normalised
  rw [splitDockerDomain_append lower name hsuffix, List.append_assoc]
  rfl

/-! ### The characters of references -/

theorem isAlphanum_ascii {c : Char} (h : c.isAlphanum = true) : c.toNat < 128 := by
  simp only [Char.isAlphanum, Char.isAlpha, Char.isUpper, Char.isLower,
    Char.isDigit, Bool.or_eq_true, Bool.and_eq_true, decide_eq_true_eq, UInt32.le_iff_toNat_le] at h
  have hval : c.toNat = c.val.toNat := rfl
  rcases h with (⟨-, h⟩ | ⟨-, h⟩) | ⟨-, h⟩
  · have : c.val.toNat ≤ 90 := h
    omega
  · have : c.val.toNat ≤ 122 := h
    omega
  · have : c.val.toNat ≤ 57 := h
    omega

theorem isHexDigit_ascii {c : Char} (h : isHexDigit c = true) : c.toNat < 128 := by
  unfold isHexDigit at h
  simp only [Bool.or_eq_true, Bool.and_eq_true, decide_eq_true_eq] at h
  rcases h with (h | ⟨-, h⟩) | ⟨-, h⟩
  · exact (isDigit_iff.mp h).2.trans_lt (by decide)
  · have : c.toNat ≤ 102 := h
    omega
  · have : c.toNat ≤ 70 := h
    omega

/-- A capital is what lower case changes. -/
theorem toLower_eq_self {c : Char} : c.toLower = c ↔ c.isUpper = false := by
  have hupper : c.isUpper = true ↔ 65 ≤ c.toNat ∧ c.toNat ≤ 90 := by
    unfold Char.isUpper
    rw [decide_eq_true_iff]
    exact Iff.rfl
  rw [Bool.eq_false_iff, ne_eq, hupper]
  constructor
  · rintro hsame ⟨hlow, hhigh⟩
    have hmoved : c.toLower.toNat = c.toNat + 32 := by
      unfold Char.toLower
      rw [dif_pos ⟨hlow, hhigh⟩]
      show (c.val + 32).toNat = c.val.toNat + 32
      rw [UInt32.toNat_add]
      have : c.val.toNat ≤ 90 := hhigh
      simp only [UInt32.reduceToNat]
      omega
    rw [hsame] at hmoved
    omega
  · intro hno
    rcases toLower_cases c with hsame | ⟨hlow, hhigh, -⟩
    · exact hsame
    · exact absurd ⟨hlow, hhigh⟩ hno

/-- The pattern has no character outside of ASCII. -/
theorem reference_ascii {c : Char} (h : reference.mentions c = true) : c.toNat < 128 := by
  by_contra hc
  have hchar : ∀ d : Char, d.toNat < 128 → decide (c = d) = false := by
    intro d hd
    refine decide_eq_false fun heq => hc ?_
    rwa [heq]
  have hname : isNameCharacter c = false := by
    rw [Bool.eq_false_iff]
    exact fun h => hc (component_character (Or.inl h)).1
  have halphanum : c.isAlphanum = false := Bool.eq_false_iff.mpr fun h => hc (isAlphanum_ascii h)
  have halpha : c.isAlpha = false := by
    unfold Char.isAlphanum at halphanum
    exact (Bool.or_eq_false_iff.mp halphanum).1
  have hdigit : c.isDigit = false := by
    unfold Char.isAlphanum at halphanum
    exact (Bool.or_eq_false_iff.mp halphanum).2
  have hhex : isHexDigit c = false := Bool.eq_false_iff.mpr fun h => hc (isHexDigit_ascii h)
  have htag : tag.mentions c = false := by
    unfold tag
    rw [GroupedRegex.mentions, GroupedRegex.mentions_upTo]
    · simp [GroupedRegex.mentions, halphanum, hchar]
    · simp [GroupedRegex.mentions, halphanum, hchar]
  have hdigest : digest.mentions c = false := by
    have htimes : ((GroupedRegex.one isHexDigit).times 32).mentions c = false :=
      GroupedRegex.mentions_times hhex
    unfold digest atLeast
    simp only [GroupedRegex.mentions, htimes]
    simp [algorithmPart, GroupedRegex.mentions, char, halphanum, halpha, hhex, hchar]
  have hpath : path.mentions c = false := by
    simp [path, pathComponent, moreRuns, separator, plus, char, GroupedRegex.mentions, hname, hchar]
  have hdomain : domain.mentions c = false := by
    simp [domain, host, domainComponent, plus, opt, char, GroupedRegex.mentions, halphanum,
      hdigit, hhex, hchar]
  have hnone : reference.mentions c = false := by
    simp [reference, afterDomain, opt, char, GroupedRegex.mentions, htag, hdigest,
      hpath, hdomain, hchar]
  rw [hnone] at h
  cases h

namespace Named

variable (r : Named)

theorem suffix_slash : '/' ∉ suffixText r.tag r.digest := by
  unfold suffixText
  intro h
  rcases List.mem_append.mp h with h | h
  · cases ht : r.tag with
    | none => simp [ht] at h
    | some t => simp [ht, r.tag_not_mem (c := '/') (by simp) ht] at h
  · cases hd : r.digest with
    | none => simp [hd] at h
    | some d => simp [hd, r.digest_slash hd] at h

theorem name_at : '@' ∉ r.name := by
  unfold name domainText
  intro h
  rcases List.mem_append.mp h with h | h
  · cases hd : r.domain with
    | none => simp [hd] at h
    | some d => simp [hd, r.domain_at hd] at h
  · exact r.path_at h

theorem name_plain : Plain r.name := by
  obtain ⟨directory, base, hpath, hdirectory, hslash⟩ := exists_directory r.path
  have hdomain : IsDirectory (domainText r.domain) := by
    unfold domainText
    cases r.domain with
    | none => exact Or.inl rfl
    | some d => exact Or.inr ⟨d, rfl⟩
  refine ⟨domainText r.domain ++ directory, base, ?_, hdomain.append hdirectory, hslash,
    fun h => r.path_colon ?_⟩
  · unfold name
    rw [hpath, List.append_assoc]
  · rw [hpath]
    exact List.mem_append_right _ h

/-- What is before a digest. -/
theorem beforeDigest_eq {name : Text} (hname : '@' ∉ name) :
    beforeDigest (name ++ suffixText r.tag r.digest) = name ++ r.tag.elim [] (':' :: ·) := by
  have hat : '@' ∉ name ++ r.tag.elim [] (':' :: ·) := by
    cases ht : r.tag with
    | none => simpa using hname
    | some t => simp [hname, r.tag_not_mem (c := '@') (by simp) ht]
  unfold beforeDigest suffixText
  rw [← List.append_assoc]
  cases r.digest with
  | none =>
      rw [Option.elim_none, List.append_nil, splitOnce_of_not_mem hat]
      rfl
  | some d =>
      rw [Option.elim_some, splitOnce_append hat]
      rfl

end Named

/-- Where the normalised form has a name, so has the reference itself. -/
theorem exists_name (lower : Lowercase) {value : Text} {r : Named}
    (h : normalised lower value = r.text) :
    ∃ name, value = name ++ suffixText r.tag r.digest ∧ normalised lower name = r.name ∧
      Plain name ∧ '@' ∉ name := by
  obtain ⟨short, long, rest, rfl, hlong, hshortmem, hlongmem⟩ := normalised_spec lower value
  have hdirectories : IsDirectory short ∧ '@' ∉ short ∧ IsDirectory long := by
    simp only [List.mem_cons, List.not_mem_nil, or_false] at hshortmem hlongmem
    refine ⟨?_, ?_, ?_⟩
    · rcases hshortmem with rfl | rfl | rfl
      · exact Or.inl rfl
      · exact Or.inr ⟨_, rfl⟩
      · exact Or.inr ⟨_, rfl⟩
    · rcases hshortmem with rfl | rfl | rfl
      · decide
      · decide
      · decide
    · rcases hlongmem with rfl | rfl | rfl
      · exact Or.inl rfl
      · exact Or.inr ⟨_, rfl⟩
      · exact Or.inr ⟨defaultDomain ++ '/' :: "library".toList, rfl⟩
  obtain ⟨hshort, hat, hlongdir⟩ := hdirectories
  obtain ⟨middle, hname, rfl⟩ := hlongdir.prefix_of (hlong.symm.trans h) r.suffix_slash
  refine ⟨short ++ middle, (List.append_assoc _ _ _).symm, ?_, ?_, ?_⟩
  · rw [← List.append_assoc, normalised_append lower _ r.suffix_slash] at h
    exact List.append_cancel_right h
  · obtain ⟨directory, base, hsplit, hdirectory, hslash, hcolon⟩ := r.name_plain
    obtain ⟨inner, hinner, hmiddle⟩ := hlongdir.prefix_of (hname.symm.trans hsplit) hslash
    refine ⟨short ++ inner, base, by rw [hmiddle, List.append_assoc], ?_, hslash, hcolon⟩
    rw [hinner] at hdirectory
    exact hshort.append hdirectory.right
  · intro hmem
    rcases List.mem_append.mp hmem with hmem | hmem
    · exact hat hmem
    · refine r.name_at ?_
      rw [hname]
      exact List.mem_append_right _ hmem

/-- The domain is the head that looks like a host, or Docker Hub's. -/
theorem splitDockerDomain_fst (lower : Lowercase) (name : Text) : (splitDockerDomain lower name).1 =
    match splitOnce '/' name with
    | none => defaultDomain
    | some (head, _) =>
        if head = legacyDefaultDomain then defaultDomain
        else if head = "localhost".toList ∨ '.' ∈ head ∨ ':' ∈ head ∨
          lower.apply head ≠ head then head
        else defaultDomain := by
  have hofficial : ∀ domain remote : Text,
      (if domain = defaultDomain ∧ '/' ∉ remote then (domain, officialRepoPrefix ++ remote)
        else (domain, remote)).1 = domain := by
    intro domain remote
    split
    · rfl
    · rfl
  unfold splitDockerDomain
  cases splitOnce '/' name with
  | none => exact hofficial defaultDomain name
  | some parts =>
      obtain ⟨head, tail⟩ := parts
      dsimp only
      by_cases hlegacy : head = legacyDefaultDomain
      · rw [if_pos hlegacy, if_pos hlegacy]
        exact hofficial defaultDomain tail
      · rw [if_neg hlegacy, if_neg hlegacy]
        by_cases hexplicit : head = "localhost".toList ∨ '.' ∈ head ∨ ':' ∈ head ∨
          lower.apply head ≠ head
        · rw [if_pos hexplicit, if_pos hexplicit]
          exact hofficial head tail
        · rw [if_neg hexplicit, if_neg hexplicit]
          exact hofficial defaultDomain name

/-- The head that `registry_hostname` takes for a host is the one that the check takes. -/
theorem registryHostname_eq (lower : Lowercase) {value : Text}
    (hascii : ∀ c ∈ value, c.toNat < 128) :
    registryHostname value = (splitDockerDomain lower value).1 := by
  rw [splitDockerDomain_fst]
  unfold registryHostname
  by_cases hslash : '/' ∈ value
  · obtain ⟨head, tail, rfl, hhead⟩ := List.eq_append_cons_of_mem hslash
    have hupper : head.any Char.isUpper = true ↔ lower.apply head ≠ head := by
      rw [lower.ascii head fun c hc => hascii c (List.mem_append_left _ hc)]
      rw [← not_iff_not, not_not, Bool.not_eq_true, List.any_eq_false]
      constructor
      · intro hall
        conv_rhs => rw [← List.map_id head]
        exact List.map_congr_left fun c hc =>
          toLower_eq_self.mpr (Bool.eq_false_iff.mpr (hall c hc))
      · intro hsame c hc
        rw [Bool.not_eq_true, ← toLower_eq_self]
        exact List.map_eq_map_iff.mp (hsame.trans (List.map_id head).symm) c hc
    rw [splitOnce_append hhead]
    simp only [hupper]
    rfl
  · rw [splitOnce_of_not_mem hslash]
    rfl

/-- A reference that the grammar reads is in ASCII. -/
theorem ascii_of_normalised (lower : Lowercase) {value : Text} {r : Named}
    (h : normalised lower value = r.text) : ∀ c ∈ value, c.toNat < 128 := by
  obtain ⟨short, long, rest, rfl, hlong, hshort, -⟩ := normalised_spec lower value
  have hprefixes : ([[], defaultDomain ++ ['/'], legacyDefaultDomain ++ ['/']].all fun t =>
      t.all fun c => decide (c.toNat < 128)) = true := rfl
  intro c hc
  rcases List.mem_append.mp hc with hc | hc
  · exact of_decide_eq_true (List.all_eq_true.mp (List.all_eq_true.mp hprefixes short hshort) c hc)
  · refine reference_ascii (r.reads.mentions c ?_)
    rw [← h, hlong]
    exact List.mem_append_right _ hc

/-- **The readers of a reference agree.**  Where the grammar reads the normalised form, the
reference itself is a name with the grammar's tag and digest after it; the scanners cut it there,
and credentials are looked up for the check's domain and no other. -/
theorem reference_parsers_agree (lower : Lowercase) (value : Text) {groups : GroupedRegex.Groups}
    (h : reference.captures (normalised lower value) = some groups) :
    ∃ name, value = name ++ suffixText (groups.lookup 3) (groups.lookup 4) ∧
      some (normalised lower name) = (groups.lookup 2).map (domainText (groups.lookup 1) ++ ·) ∧
      splitImageReference (beforeDigest value) = (name, groups.lookup 3) ∧
      pullRequestReference value = (match groups.lookup 4 with
        | some _ => (value, none)
        | none => (name, some ((groups.lookup 3).getD "latest".toList))) ∧
      (∀ digest, digestPinnedReference value digest = name ++ '@' :: digest) ∧
      registryHostname value = (splitDockerDomain lower value).1 ∧
      ∀ {α : Type} (resolve resolve' : Text → Except Text (Option α)),
        resolve (splitDockerDomain lower value).1 = resolve' (splitDockerDomain lower value).1 →
          resolvePullCredential resolve value = resolvePullCredential resolve' value := by
  obtain ⟨r, htext, rfl⟩ := Named.of_reads (GroupedRegex.captures_eq_some h)
  obtain ⟨name, hvalue, hname, hplain, hat⟩ := exists_name lower htext
  have hhost := registryHostname_eq lower (ascii_of_normalised lower htext)
  have hsplit : splitImageReference (beforeDigest value) = (name, r.tag) := by
    rw [hvalue, r.beforeDigest_eq hat]
    exact splitImageReference_plain hplain fun t ht =>
      ⟨r.tag_not_mem (by simp) ht, r.tag_not_mem (by simp) ht⟩
  rw [r.lookup_domain, r.lookup_path, r.lookup_tag, r.lookup_digest]
  refine ⟨name, hvalue, congrArg some hname, hsplit, ?_, ?_, hhost, ?_⟩
  · unfold pullRequestReference
    cases hd : r.digest with
    | some d =>
        have hmem : '@' ∈ value := by
          rw [hvalue, hd]
          simp [suffixText]
        rw [if_pos hmem]
    | none =>
        have hbefore := r.beforeDigest_eq hat
        have hwhole : name ++ suffixText r.tag r.digest = name ++ r.tag.elim [] (':' :: ·) := by
          unfold suffixText
          rw [hd, Option.elim_none, List.append_nil]
        rw [← hvalue] at hbefore hwhole
        have hmem : '@' ∉ value := by
          intro hmem
          rw [hwhole] at hmem
          rcases List.mem_append.mp hmem with hmem | hmem
          · exact hat hmem
          · cases ht : r.tag with
            | none => simp [ht] at hmem
            | some t => simp [ht, r.tag_not_mem (c := '@') (by simp) ht] at hmem
        rw [if_neg hmem]
        rw [hbefore, ← hwhole] at hsplit
        rw [hsplit]
  · intro digest
    unfold digestPinnedReference
    rw [hsplit]
  · intro α resolve resolve' hresolve
    unfold resolvePullCredential
    dsimp only
    rw [hhost, hresolve]

theorem reference_parsers_agree_port : ∃ name,
    "localhost:5000/tool:v2".toList = name ++ suffixText (some "v2".toList) none ∧
      splitImageReference (beforeDigest "localhost:5000/tool:v2".toList) =
        (name, some "v2".toList) ∧
      registryHostname "localhost:5000/tool:v2".toList =
        (splitDockerDomain .asciiOnly "localhost:5000/tool:v2".toList).1 := by
  have hcaptures : reference.captures (normalised .asciiOnly "localhost:5000/tool:v2".toList) =
      some [(1, "localhost:5000".toList), (2, "tool".toList), (3, "v2".toList)] := by
    decide +kernel
  obtain ⟨name, hvalue, -, hsplit, -, -, hhost, -⟩ :=
    reference_parsers_agree .asciiOnly "localhost:5000/tool:v2".toList hcaptures
  exact ⟨name, hvalue, hsplit, hhost⟩

end Ratect.ImageReference
