import Ratect.Configuration
import Ratect.GroupedRegex
import Ratect.Loop
import Ratect.Strings

/-! # Image references

`image_reference.rs`: the grammar of a whole reference as one pattern, the split into a registry
host and what it holds, and the check that a tag passes before its image is built.  A built image's
tag is its project's and its container's names joined by a dash; two name components joined so are
a component (`isNameComponent_join`), and what is checked of it is its length alone
(`built_image_names_valid`). -/

namespace Ratect.ImageReference

open GroupedRegex (char opt plus upTo atLeast Groups Reads)

/-- `str::to_lowercase`: what it does outside of ASCII is left open. -/
structure Lowercase where
  apply : Text → Text
  ascii : ∀ t : Text, (∀ c ∈ t, c.toNat < 128) → apply t = t.map Char.toLower

/-- The lower case of ASCII alone. -/
def Lowercase.asciiOnly : Lowercase := ⟨fun t => t.map Char.toLower, fun _ _ => rfl⟩

def repositoryNameTotalLengthMax : ℕ := 255

def defaultDomain : Text := "docker.io".toList

def legacyDefaultDomain : Text := "index.docker.io".toList

def officialRepoPrefix : Text := "library/".toList

/-! ### The patterns -/

/-- `[._]|__|[-]+` -/
def separator : GroupedRegex :=
  .alt (.one fun c => c = '.' || c = '_') (.alt (.cat (char '_') (char '_')) (plus (char '-')))

/-- `(?:(?:[._]|__|[-]+)[a-z0-9]+)*` -/
def moreRuns : GroupedRegex := .star (.cat separator (plus (.one isNameCharacter)))

/-- `[a-z0-9]+(?:(?:[._]|__|[-]+)[a-z0-9]+)*` -/
def pathComponent : GroupedRegex := .cat (plus (.one isNameCharacter)) moreRuns

/-- `[a-zA-Z0-9]|[a-zA-Z0-9][a-zA-Z0-9-]*[a-zA-Z0-9]` -/
def domainComponent : GroupedRegex :=
  .alt (.one Char.isAlphanum)
    (.cat (.one Char.isAlphanum)
      (.cat (.star (.one fun c => c.isAlphanum || c = '-')) (.one Char.isAlphanum)))

/-- `[[:xdigit:]]` -/
def isHexDigit (c : Char) : Bool :=
  c.isDigit || (decide ('a' ≤ c) && decide (c ≤ 'f')) || (decide ('A' ≤ c) && decide (c ≤ 'F'))

/-- Domain components joined by dots, or an IPv6 address in brackets. -/
def host : GroupedRegex :=
  .alt (.cat domainComponent (.star (.cat (char '.') domainComponent)))
    (.cat (char '[') (.cat (plus (.one fun c => isHexDigit c || c = ':')) (char ']')))

/-- A host with or without a port. -/
def domain : GroupedRegex := .cat host (opt (.cat (char ':') (plus (.one Char.isDigit))))

/-- Path components joined by slashes. -/
def path : GroupedRegex := .cat pathComponent (.star (.cat (char '/') pathComponent))

/-- `[0-9A-Za-z_][0-9A-Za-z_.-]{0,127}` -/
def tag : GroupedRegex :=
  .cat (.one fun c => c.isAlphanum || c = '_')
    (upTo (.one fun c => c.isAlphanum || c = '_' || c = '.' || c = '-') 127)

/-- `[A-Za-z][A-Za-z0-9]*` -/
def algorithmPart : GroupedRegex := .cat (.one Char.isAlpha) (.star (.one Char.isAlphanum))

/-- An algorithm, whose parts `-`, `_`, `+` and `.` join, and at least 32 hexadecimal digits. -/
def digest : GroupedRegex :=
  .cat algorithmPart
    (.cat (.star (.cat (.one fun c => c = '-' || c = '_' || c = '+' || c = '.') algorithmPart))
      (.cat (char ':') (atLeast (.one isHexDigit) 32)))

/-- What follows the domain. -/
def afterDomain : GroupedRegex :=
  .cat (.group 2 path)
    (.cat (opt (.cat (char ':') (.group 3 tag))) (opt (.cat (char '@') (.group 4 digest))))

/-- `REFERENCE`: an optional registry host and `/`, the repository path, an optional tag and an
optional digest. -/
def reference : GroupedRegex := .cat (opt (.cat (.group 1 domain) (char '/'))) afterDomain

/-- `IMAGE_ID`. -/
def imageId : GroupedRegex :=
  (GroupedRegex.one fun c => (decide ('a' ≤ c) && decide (c ≤ 'f')) || c.isDigit).times 64

/-! ### The check -/

/-- `split_docker_domain`: the registry host that the name begins with, or Docker Hub's, and what
it holds. -/
def splitDockerDomain (lower : Lowercase) (name : Text) : Text × Text :=
  let (domain, remote) :=
    match splitOnce '/' name with
    | none => (defaultDomain, name)
    | some (head, tail) =>
        if head = legacyDefaultDomain then (defaultDomain, tail)
        else if head = "localhost".toList ∨ '.' ∈ head ∨ ':' ∈ head ∨
          lower.apply head ≠ head then (head, tail)
        else (defaultDomain, name)
  if domain = defaultDomain ∧ '/' ∉ remote then (domain, officialRepoPrefix ++ remote)
  else (domain, remote)

/-- `check_digest`. -/
def checkDigest (digest : Text) : Except String Unit :=
  let (algorithm, encoded) := (splitOnce ':' digest).getD ([], [])
  let withLength (length : ℕ) : Except String Unit :=
    if byteLength encoded ≠ length then .error "invalid checksum digest length"
    else if encoded.any Char.isUpper = true then .error "invalid checksum digest format"
    else .ok ()
  if algorithm = "sha256".toList then withLength 64
  else if algorithm = "sha384".toList then withLength 96
  else if algorithm = "sha512".toList then withLength 128
  else if algorithm.any Char.isUpper = true then .error "invalid checksum digest format"
  else .error "unsupported digest algorithm"

/-- `parse`: the normalised name matches the pattern, is short enough and has no digest. -/
def parse (lower : Lowercase) (value : Text) : Except String Unit :=
  match reference.captures value with
  | none =>
      if lower.apply value ≠ value ∧ reference.isMatch (lower.apply value) = true then
        .error "repository name must be lowercase"
      else .error "invalid reference format"
  | some groups =>
      if byteLength ((groups.lookup 2).getD []) > repositoryNameTotalLengthMax then
        .error "repository name must not be more than 255 characters"
      else
        match groups.lookup 4 with
        | none => .ok ()
        | some digest => do
            checkDigest digest
            .error "refusing to create a tag with a digest reference"

/-- `check`: the value is a reference that Docker accepts as a built image's tag. -/
def check (lower : Lowercase) (value : Text) : Except String Unit :=
  if imageId.isMatch value = true then
    .error ("invalid repository name (" ++ String.ofList value ++
      "), cannot specify 64-byte hexadecimal strings")
  else
    let (domain, remainder) := splitDockerDomain lower value
    let remote := remainder.takeWhile (· ≠ ':')
    if lower.apply remote ≠ remote then
      .error ("invalid reference format: repository name (" ++ String.ofList remote ++
        ") must be lowercase")
    else parse lower (domain ++ '/' :: remainder)

/-- The tag of the image that a project builds for a container. -/
def builtImageTag (projectName containerName : Text) : Text := projectName ++ '-' :: containerName

/-! ### Name components -/

/-- What a reader of a component may still read. -/
def remaining : NameState → GroupedRegex
  | .start | .dot | .underscores => pathComponent
  | .run => .cat (.star (.one isNameCharacter)) moreRuns
  | .underscore => .cat (opt (char '_')) pathComponent
  | .dashes => .cat (.star (char '-')) pathComponent

theorem reads_component_of_run {c : Char} {t : Text} (hc : isNameCharacter c = true)
    (h : Reads (remaining .run) [] t) : Reads pathComponent [] (c :: t) := by
  obtain ⟨u, v, rfl, hu, hv⟩ := GroupedRegex.reads_cat_nil.mp h
  exact .cat (.cat (.one hc) hu) hv

theorem reads_run_of_separator {u t : Text} (hu : Reads separator [] u)
    (h : Reads pathComponent [] t) : Reads (remaining .run) [] (u ++ t) := by
  obtain ⟨v, w, rfl, hv, hw⟩ := GroupedRegex.reads_cat_nil.mp h
  have hne : u ++ v ≠ [] := by
    obtain ⟨x, y, rfl, hx, -⟩ := GroupedRegex.reads_cat_nil.mp hv
    obtain ⟨-, c, rfl, -⟩ := GroupedRegex.reads_one.mp hx
    simp
  have hmore : Reads moreRuns [] (u ++ v ++ w) := .starCons hne (.cat hu hv) hw
  rw [List.append_assoc] at hmore
  exact .cat .starNil hmore

/-- A letter or digit takes every state into a run. -/
theorem reads_of_character {state : NameState} {c : Char} {t : Text} (hc : isNameCharacter c = true)
    (h : Reads (remaining .run) [] t) : Reads (remaining state) [] (c :: t) := by
  have hcomponent := reads_component_of_run hc h
  cases state with
  | start | dot | underscores => exact hcomponent
  | run =>
      obtain ⟨u, v, rfl, hu, hv⟩ := GroupedRegex.reads_cat_nil.mp h
      exact .cat (.starCons (List.cons_ne_nil c []) (.one hc) hu) hv
  | underscore => exact .cat (.right .empty) hcomponent
  | dashes => exact .cat .starNil hcomponent

/-- What the reader takes is what the pattern of its state reads. -/
theorem reads_of_accepts {state : NameState} {t : Text} (h : state.accepts t = true) :
    Reads (remaining state) [] t := by
  induction t generalizing state with
  | nil =>
      rw [NameState.accepts_nil.mp h]
      exact .cat .starNil .starNil
  | cons c t ih =>
      obtain ⟨state', hnext, haccepts⟩ := NameState.accepts_cons.mp h
      have hread := ih haccepts
      unfold NameState.next at hnext
      split at hnext
      · next hc =>
          obtain rfl := Option.some.inj hnext
          exact reads_of_character hc hread
      · split at hnext
        · obtain rfl := Option.some.inj hnext
          exact reads_run_of_separator (.left (.one rfl)) hread
        · obtain rfl := Option.some.inj hnext
          obtain ⟨u, v, rfl, hu, hv⟩ := GroupedRegex.reads_cat_nil.mp hread
          rcases GroupedRegex.reads_opt.mp hu with hu | ⟨-, rfl⟩
          · exact reads_run_of_separator (u := '_' :: u) (.right (.left (.cat (.one rfl) hu))) hv
          · exact reads_run_of_separator (.left (.one rfl)) hv
        · obtain rfl := Option.some.inj hnext
          exact .cat (.left (.one rfl)) hread
        · obtain rfl := Option.some.inj hnext
          obtain ⟨u, v, rfl, hu, hv⟩ := GroupedRegex.reads_cat_nil.mp hread
          exact reads_run_of_separator (u := '-' :: u) (.right (.right (.cat (.one rfl) hu))) hv
        · obtain rfl := Option.some.inj hnext
          obtain ⟨u, v, rfl, hu, hv⟩ := GroupedRegex.reads_cat_nil.mp hread
          exact .cat (.starCons (List.cons_ne_nil '-' []) (.one rfl) hu) hv
        · cases hnext

theorem accepts_characters {g : Groups} {u : Text} (h : Reads (.star (.one isNameCharacter)) g u)
    {t : Text} (ht : NameState.run.accepts t = true) : NameState.run.accepts (u ++ t) = true := by
  refine Reads.star_induction (P := fun u => NameState.run.accepts (u ++ t) = true) ht ?_ h
  intro g v w hv hw
  obtain ⟨-, c, rfl, hc⟩ := GroupedRegex.reads_one.mp hv
  exact NameState.accepts_cons.mpr ⟨.run, if_pos hc, hw⟩

theorem accepts_plus {g : Groups} {u : Text} (h : Reads (plus (.one isNameCharacter)) g u)
    {t : Text} (ht : NameState.run.accepts t = true) (state : NameState) :
    state.accepts (u ++ t) = true := by
  obtain ⟨_, _, v, w, -, rfl, hv, hw⟩ := GroupedRegex.reads_cat.mp h
  obtain ⟨-, c, rfl, hc⟩ := GroupedRegex.reads_one.mp hv
  exact NameState.accepts_cons.mpr ⟨.run, if_pos hc, accepts_characters hw ht⟩

theorem accepts_dashes {g : Groups} {u : Text} (h : Reads (.star (char '-')) g u) {t : Text}
    (ht : NameState.dashes.accepts t = true) : NameState.dashes.accepts (u ++ t) = true := by
  refine Reads.star_induction (P := fun u => NameState.dashes.accepts (u ++ t) = true) ht ?_ h
  intro g v w hv hw
  obtain ⟨-, rfl⟩ := GroupedRegex.reads_char.mp hv
  exact NameState.accepts_cons.mpr ⟨.dashes, rfl, hw⟩

/-- After a separator, a reader waits for the next run. -/
theorem accepts_separator {g : Groups} {u : Text} (h : Reads separator g u) {t : Text}
    (ht : ∀ state : NameState, state.accepts t = true) : NameState.run.accepts (u ++ t) = true := by
  rcases GroupedRegex.reads_alt.mp h with h | h
  · obtain ⟨-, c, rfl, hc⟩ := GroupedRegex.reads_one.mp h
    rw [Bool.or_eq_true, decide_eq_true_iff, decide_eq_true_iff] at hc
    rcases hc with rfl | rfl
    · exact NameState.accepts_cons.mpr ⟨.dot, rfl, ht _⟩
    · exact NameState.accepts_cons.mpr ⟨.underscore, rfl, ht _⟩
  · rcases GroupedRegex.reads_alt.mp h with h | h
    · obtain ⟨_, _, v, w, -, rfl, hv, hw⟩ := GroupedRegex.reads_cat.mp h
      obtain ⟨-, rfl⟩ := GroupedRegex.reads_char.mp hv
      obtain ⟨-, rfl⟩ := GroupedRegex.reads_char.mp hw
      exact NameState.accepts_cons.mpr
        ⟨.underscore, rfl, NameState.accepts_cons.mpr ⟨.underscores, rfl, ht _⟩⟩
    · obtain ⟨_, _, v, w, -, rfl, hv, hw⟩ := GroupedRegex.reads_cat.mp h
      obtain ⟨-, rfl⟩ := GroupedRegex.reads_char.mp hv
      exact NameState.accepts_cons.mpr ⟨.dashes, rfl, accepts_dashes hw (ht _)⟩

theorem accepts_moreRuns {g : Groups} {u : Text} (h : Reads moreRuns g u) :
    NameState.run.accepts u = true := by
  refine Reads.star_induction (P := fun u => NameState.run.accepts u = true) rfl ?_ h
  intro g v w hv hw
  obtain ⟨_, _, x, y, -, rfl, hx, hy⟩ := GroupedRegex.reads_cat.mp hv
  rw [List.append_assoc]
  exact accepts_separator hx (accepts_plus hy hw)

/-- The reader of a component is its pattern's. -/
theorem isNameComponent_iff {t : Text} : isNameComponent t = true ↔ Reads pathComponent [] t := by
  constructor
  · exact fun h => @reads_of_accepts .start t h
  · intro h
    obtain ⟨u, v, rfl, hu, hv⟩ := GroupedRegex.reads_cat_nil.mp h
    exact accepts_plus hu (accepts_moreRuns hv) .start

/-- `is_name_component` as the source writes it. -/
theorem isNameComponent_eq_isMatch (t : Text) : isNameComponent t = pathComponent.isMatch t := by
  rw [Bool.eq_iff_iff, isNameComponent_iff]
  unfold GroupedRegex.isMatch
  rw [GroupedRegex.captures_isSome]
  constructor
  · exact fun h => ⟨[], h⟩
  · rintro ⟨g, h⟩
    obtain rfl := h.groupless rfl
    exact h

/-! ### A reference by its parts -/

theorem tag_groupless : tag.groupless = true := by
  unfold tag
  rw [GroupedRegex.groupless, GroupedRegex.groupless_upTo rfl]
  rfl

theorem digest_groupless : digest.groupless = true := by
  unfold digest atLeast
  simp only [GroupedRegex.groupless]
  rfl

/-- What the groups of the pattern take in a reference. -/
structure Named where
  domain : Option Text
  path : Text
  tag : Option Text
  digest : Option Text
  domain_reads : ∀ d ∈ domain, Reads ImageReference.domain [] d
  path_reads : Reads ImageReference.path [] path
  tag_reads : ∀ t ∈ tag, Reads ImageReference.tag [] t
  digest_reads : ∀ d ∈ digest, Reads ImageReference.digest [] d

/-- An optional domain as a reference has it. -/
def domainText (domain : Option Text) : Text := domain.elim [] (· ++ ['/'])

/-- An optional tag and an optional digest as a reference has them. -/
def suffixText (tag digest : Option Text) : Text :=
  tag.elim [] (':' :: ·) ++ digest.elim [] ('@' :: ·)

namespace Named

/-- The repository: the domain and the path. -/
def name (r : Named) : Text := domainText r.domain ++ r.path

def text (r : Named) : Text := r.name ++ suffixText r.tag r.digest

/-- The groups after the domain's. -/
def groupsAfter (r : Named) : Groups :=
  (2, r.path) :: (r.tag.elim [] (fun t => [(3, t)]) ++ r.digest.elim [] fun d => [(4, d)])

def groups (r : Named) : Groups := r.domain.elim [] (fun d => [(1, d)]) ++ r.groupsAfter

theorem lookup_domain (r : Named) : r.groups.lookup 1 = r.domain := by
  unfold groups groupsAfter
  cases r.domain <;> cases r.tag <;> cases r.digest <;> rfl

theorem lookup_path (r : Named) : r.groups.lookup 2 = some r.path := by
  unfold groups groupsAfter
  cases r.domain <;> rfl

theorem lookup_tag (r : Named) : r.groups.lookup 3 = r.tag := by
  unfold groups groupsAfter
  cases r.domain <;> cases r.tag <;> cases r.digest <;> rfl

theorem lookup_digest (r : Named) : r.groups.lookup 4 = r.digest := by
  unfold groups groupsAfter
  cases r.domain <;> cases r.tag <;> cases r.digest <;> rfl

theorem reads_after (r : Named) :
    Reads afterDomain r.groupsAfter (r.path ++ suffixText r.tag r.digest) := by
  have htag :=
    (GroupedRegex.reads_opt_group (c := ':') (n := 3) tag_groupless).mpr
      ⟨r.tag, rfl, rfl, r.tag_reads⟩
  have hdigest := (GroupedRegex.reads_opt_group (c := '@') (n := 4) digest_groupless).mpr
    ⟨r.digest, rfl, rfl, r.digest_reads⟩
  have hpath : Reads (.group 2 ImageReference.path) [(2, r.path)] r.path := .group r.path_reads
  exact .cat hpath (.cat htag hdigest)

/-- The pattern reads every reference by its parts. -/
theorem reads (r : Named) : Reads reference r.groups r.text := by
  have hdomain :=
    (GroupedRegex.reads_opt_group_char (c := '/') (n := 1) rfl).mpr
      ⟨r.domain, rfl, rfl, r.domain_reads⟩
  have hread := Reads.cat hdomain r.reads_after
  unfold text name domainText
  rwa [List.append_assoc]

/-- What the pattern reads is a reference by its parts. -/
theorem of_reads {g : Groups} {w : Text} (h : Reads reference g w) :
    ∃ r : Named, w = r.text ∧ g = r.groups := by
  obtain ⟨g₁, g₂, w₁, w₂, rfl, rfl, hdomain, hrest⟩ := GroupedRegex.reads_cat.mp h
  obtain ⟨g₂, g₃, w₂, w₃, rfl, rfl, hgroup, hsuffix⟩ := GroupedRegex.reads_cat.mp hrest
  obtain ⟨g₃, g₄, w₃, w₄, rfl, rfl, htag, hdigest⟩ := GroupedRegex.reads_cat.mp hsuffix
  obtain ⟨inner, rfl, hpath⟩ := GroupedRegex.reads_group.mp hgroup
  obtain rfl := hpath.groupless rfl
  obtain ⟨domain, rfl, rfl, hd⟩ := (GroupedRegex.reads_opt_group_char rfl).mp hdomain
  obtain ⟨tag, rfl, rfl, ht⟩ := (GroupedRegex.reads_opt_group tag_groupless).mp htag
  obtain ⟨digest, rfl, rfl, hg⟩ := (GroupedRegex.reads_opt_group digest_groupless).mp hdigest
  refine ⟨⟨domain, w₂, tag, digest, hd, hpath, ht, hg⟩, ?_, rfl⟩
  unfold text name suffixText domainText
  rw [List.append_assoc]

/-! ### Which characters a part has -/

variable (r : Named)

theorem domain_slash {d : Text} (h : r.domain = some d) : '/' ∉ d :=
  (r.domain_reads d h).not_mem (by decide)

theorem domain_at {d : Text} (h : r.domain = some d) : '@' ∉ d :=
  (r.domain_reads d h).not_mem (by decide)

theorem path_colon : ':' ∉ r.path := r.path_reads.not_mem (by decide)

theorem path_at : '@' ∉ r.path := r.path_reads.not_mem (by decide)

theorem tag_not_mem {c : Char} (hc : c ∈ ['/', ':', '@']) {t : Text}
    (h : r.tag = some t) : c ∉ t := by
  refine (r.tag_reads t h).not_mem ?_
  have hboth : (GroupedRegex.one fun c => c.isAlphanum || c = '_').mentions c = false ∧
      (GroupedRegex.one fun c => c.isAlphanum || c = '_' || c = '.' || c = '-').mentions c =
        false := by
    simp only [List.mem_cons, List.not_mem_nil, or_false] at hc
    rcases hc with rfl | rfl | rfl
    · exact ⟨rfl, rfl⟩
    · exact ⟨rfl, rfl⟩
    · exact ⟨rfl, rfl⟩
  unfold ImageReference.tag
  rw [GroupedRegex.mentions, hboth.1, GroupedRegex.mentions_upTo hboth.2, Bool.false_or]

theorem digest_slash {d : Text} (h : r.digest = some d) : '/' ∉ d := by
  refine (r.digest_reads d h).not_mem ?_
  unfold ImageReference.digest atLeast
  simp only [GroupedRegex.mentions]
  rw [GroupedRegex.mentions_times (by decide)]
  decide

/-- Where a domain can be read, it is. -/
theorem captures_with_domain {d : Text} (h : r.domain = some d) :
    ∃ r' : Named,
      reference.captures r.text = some r'.groups ∧ r'.text = r.text ∧ r'.domain.isSome = true := by
  have htext : r.text = d ++ ['/'] ++ (r.path ++ suffixText r.tag r.digest) := by
    unfold text name domainText
    rw [h, List.append_assoc]
    rfl
  have hfirst : (GroupedRegex.cat
      (.cat (.group 1 ImageReference.domain) (char '/')) afterDomain).Reads
      ([(1, d)] ++ [] ++ r.groupsAfter) r.text := by
    rw [htext]
    exact .cat (.cat (.group (r.domain_reads d h)) (.one (decide_eq_true rfl))) r.reads_after
  obtain ⟨groups, hgroups⟩ :=
    Option.isSome_iff_exists.mp (GroupedRegex.captures_isSome.mpr ⟨_, hfirst⟩)
  have hcaptures : reference.captures r.text = some groups := by
    unfold reference opt
    rw [GroupedRegex.captures_cat_alt, hgroups]
    rfl
  obtain ⟨r', htext', rfl⟩ := of_reads (GroupedRegex.captures_eq_some hcaptures)
  refine ⟨r', hcaptures, htext'.symm, ?_⟩
  obtain ⟨g₁, g₂, w₁, w₂, hsplit, -, hdomain, -⟩ :=
    GroupedRegex.reads_cat.mp (GroupedRegex.captures_eq_some hgroups)
  obtain ⟨g₁, g₃, w₁, w₃, rfl, -, hgroup, -⟩ := GroupedRegex.reads_cat.mp hdomain
  obtain ⟨inner, rfl, -⟩ := GroupedRegex.reads_group.mp hgroup
  rw [← r'.lookup_domain, hsplit]
  rfl

end Named

/-! ### The tag of a built image -/

theorem accepts_append {state : NameState} {u t : Text} (hu : state.accepts u = true)
    (ht : NameState.run.accepts t = true) : state.accepts (u ++ t) = true := by
  induction u generalizing state with
  | nil =>
      rw [NameState.accepts_nil.mp hu]
      exact ht
  | cons c u ih =>
      obtain ⟨state', hnext, haccepts⟩ := NameState.accepts_cons.mp hu
      exact NameState.accepts_cons.mpr ⟨state', hnext, ih haccepts⟩

/-- What begins a component may follow a dash. -/
theorem accepts_after_dash {t : Text} (h : NameState.start.accepts t = true) :
    NameState.dashes.accepts t = true := by
  cases t with
  | nil => cases NameState.accepts_nil.mp h
  | cons c t =>
      obtain ⟨state', hnext, haccepts⟩ := NameState.accepts_cons.mp h
      unfold NameState.next at hnext
      split at hnext
      · next hc =>
          obtain rfl := Option.some.inj hnext
          exact NameState.accepts_cons.mpr ⟨.run, if_pos hc, haccepts⟩
      · cases hnext

/-- Two components joined by a dash are one. -/
theorem isNameComponent_join {a b : Text} (ha : isNameComponent a = true)
    (hb : isNameComponent b = true) : isNameComponent (a ++ '-' :: b) = true := by
  have hjoin : NameState.run.accepts ('-' :: b) = true :=
    NameState.accepts_cons.mpr ⟨.dashes, rfl, accepts_after_dash hb⟩
  exact @accepts_append .start a _ ha hjoin

theorem isNameCharacter_iff {c : Char} :
    isNameCharacter c = true ↔ 97 ≤ c.toNat ∧ c.toNat ≤ 122 ∨ 48 ≤ c.toNat ∧ c.toNat ≤ 57 := by
  unfold isNameCharacter
  rw [Bool.or_eq_true, Bool.and_eq_true, decide_eq_true_iff, decide_eq_true_iff, isDigit_iff]
  exact Iff.rfl

/-- The characters of components are in ASCII, and no capitals. -/
theorem component_character {c : Char} (h : isNameCharacter c = true ∨ c ∈ ['.', '_', '-']) :
    c.toNat < 128 ∧ c.toLower = c := by
  rcases h with h | h
  · rw [isNameCharacter_iff] at h
    refine ⟨by omega, ?_⟩
    rcases toLower_cases c with hsame | ⟨hlow, hhigh, -⟩
    · exact hsame
    · omega
  · simp only [List.mem_cons, List.not_mem_nil, or_false] at h
    rcases h with rfl | rfl | rfl
    · exact ⟨by decide, rfl⟩
    · exact ⟨by decide, rfl⟩
    · exact ⟨by decide, rfl⟩

/-- Nor is any of them a separator of the grammar. -/
theorem component_separator {c : Char} (h : isNameCharacter c = true ∨ c ∈ ['.', '_', '-']) :
    c ≠ '/' ∧ c ≠ ':' ∧ c ≠ '@' := by
  refine ⟨?_, ?_, ?_⟩
  · rintro rfl
    revert h
    decide
  · rintro rfl
    revert h
    decide
  · rintro rfl
    revert h
    decide

theorem officialRepoPrefix_chars : ∀ c ∈ officialRepoPrefix,
    (c.toNat < 128 ∧ c.toLower = c) ∧ c ≠ ':' ∧ c ≠ '@' := by
  have hall : (officialRepoPrefix.all fun c =>
      decide ((c.toNat < 128 ∧ c.toLower = c) ∧ c ≠ ':' ∧ c ≠ '@')) = true := by rfl
  exact fun c hc => of_decide_eq_true (List.all_eq_true.mp hall c hc)

section builtImage

variable {name : Text} (hname : isNameComponent name = true)

include hname

theorem splitDockerDomain_component (lower : Lowercase) :
    splitDockerDomain lower name = (defaultDomain, officialRepoPrefix ++ name) := by
  have hslash : '/' ∉ name := fun h => (component_separator (isNameComponent_chars hname _ h)).1 rfl
  unfold splitDockerDomain
  rw [splitOnce_of_not_mem hslash]
  exact if_pos ⟨rfl, hslash⟩

/-- Docker Hub's path of a component. -/
theorem reads_officialPath : Reads path [] (officialRepoPrefix ++ name) := by
  have hlibrary : Reads pathComponent [] "library".toList := isNameComponent_iff.mp (by decide)
  have hslash : Reads (.cat (char '/') pathComponent) [] ('/' :: name) :=
    .cat (.one (decide_eq_true rfl)) (isNameComponent_iff.mp hname)
  have hmore : Reads (.star (.cat (char '/') pathComponent)) [] ('/' :: name) := by
    have hread := Reads.starCons (List.cons_ne_nil _ _) hslash .starNil
    rwa [List.append_nil, List.append_nil] at hread
  have hread := Reads.cat hlibrary hmore
  exact hread

theorem officialName_lower (lower : Lowercase) :
    lower.apply (officialRepoPrefix ++ name) = officialRepoPrefix ++ name := by
  have hchars : ∀ c ∈ officialRepoPrefix ++ name, c.toNat < 128 ∧ c.toLower = c := by
    intro c hc
    rcases List.mem_append.mp hc with hc | hc
    · exact (officialRepoPrefix_chars c hc).1
    · exact component_character (isNameComponent_chars hname c hc)
  rw [lower.ascii _ fun c hc => (hchars c hc).1]
  conv_rhs => rw [← List.map_id (officialRepoPrefix ++ name)]
  exact List.map_congr_left fun c hc => (hchars c hc).2

theorem officialName_length :
    byteLength (officialRepoPrefix ++ name) = (officialRepoPrefix ++ name).length := by
  refine byteLength_ascii fun c hc => ?_
  rcases List.mem_append.mp hc with hc | hc
  · exact (officialRepoPrefix_chars c hc).1.1
  · exact (component_character (isNameComponent_chars hname c hc)).1

/-- The whole pattern reads the normalised name as Docker Hub's domain and a path. -/
theorem captures_component : ∃ r : Named,
    reference.captures (defaultDomain ++ '/' :: (officialRepoPrefix ++ name)) = some r.groups ∧
      r.domain = some defaultDomain ∧ r.path = officialRepoPrefix ++ name ∧ r.tag = none ∧
        r.digest = none := by
  have hdomain : Reads domain [] defaultDomain := by
    have hsome : (domain.captures defaultDomain).isSome = true := by decide +kernel
    obtain ⟨g, hg⟩ := GroupedRegex.captures_isSome.mp hsome
    obtain rfl := hg.groupless rfl
    exact hg
  let intended : Named :=
    { domain := some defaultDomain, path := officialRepoPrefix ++ name, tag := none, digest := none
      domain_reads := fun d hd => Option.mem_some.mp hd ▸ hdomain
      path_reads := reads_officialPath hname
      tag_reads := fun t ht => absurd ht (Option.not_mem_none t)
      digest_reads := fun d hd => absurd hd (Option.not_mem_none d) }
  have htext : intended.text = defaultDomain ++ '/' :: (officialRepoPrefix ++ name) := by
    show (defaultDomain ++ ['/'] ++ (officialRepoPrefix ++ name)) ++ [] = _
    rw [List.append_nil, List.append_assoc]
    rfl
  obtain ⟨r, hcaptures, hsame, hsome⟩ := intended.captures_with_domain rfl
  rw [htext] at hcaptures hsame
  have hclean : ∀ c ∈ r.text, c ≠ ':' ∧ c ≠ '@' := by
    rw [hsame]
    have hdefault : ∀ c ∈ defaultDomain, c ≠ ':' ∧ c ≠ '@' := by
      have hall : (defaultDomain.all fun c => decide (c ≠ ':' ∧ c ≠ '@')) = true := rfl
      exact fun c hc => of_decide_eq_true (List.all_eq_true.mp hall c hc)
    intro c hc
    rcases List.mem_append.mp hc with hc | hc
    · exact hdefault c hc
    · rcases List.mem_cons.mp hc with rfl | hc
      · decide
      · rcases List.mem_append.mp hc with hc | hc
        · exact (officialRepoPrefix_chars c hc).2
        · exact (component_separator (isNameComponent_chars hname c hc)).2
  have htag : r.tag = none := by
    cases ht : r.tag with
    | none => rfl
    | some t =>
        refine absurd rfl (hclean ':' ?_).1
        unfold Named.text suffixText
        simp [ht]
  have hdigest : r.digest = none := by
    cases hd : r.digest with
    | none => rfl
    | some d =>
        refine absurd rfl (hclean '@' ?_).2
        unfold Named.text suffixText
        simp [hd]
  obtain ⟨d, hd⟩ := Option.isSome_iff_exists.mp hsome
  have hsplit : d ++ '/' :: r.path = defaultDomain ++ '/' :: (officialRepoPrefix ++ name) := by
    rw [← hsame]
    unfold Named.text Named.name suffixText domainText
    simp [hd, htag, hdigest]
  have hparts := congrArg (splitOnce '/') hsplit
  rw [splitOnce_append (r.domain_slash hd), splitOnce_append (by decide)] at hparts
  obtain ⟨hsamedomain, hpath⟩ := Prod.mk.inj (Option.some.inj hparts)
  exact ⟨r, hcaptures, hd.trans (congrArg some hsamedomain), hpath, htag, hdigest⟩

end builtImage

/-- A name with a dash is no image's ID. -/
theorem imageId_of_dash {name : Text} (h : '-' ∈ name) : imageId.isMatch name = false := by
  rw [Bool.eq_false_iff]
  intro hmatch
  obtain ⟨g, hg⟩ := GroupedRegex.captures_isSome.mp hmatch
  exact hg.not_mem (GroupedRegex.mentions_times rfl) h

/-- What is checked of a component with a dash is its length. -/
theorem check_component (lower : Lowercase) {name : Text} (hname : isNameComponent name = true)
    (hdash : '-' ∈ name) :
    check lower name = .ok () ↔ (officialRepoPrefix ++ name).length ≤ 255 := by
  have hremote : (officialRepoPrefix ++ name).takeWhile (· ≠ ':') = officialRepoPrefix ++ name := by
    refine List.takeWhile_eq_self_iff.mpr fun c hc => decide_eq_true ?_
    rcases List.mem_append.mp hc with hc | hc
    · exact (officialRepoPrefix_chars c hc).2.1
    · exact (component_separator (isNameComponent_chars hname c hc)).2.1
  obtain ⟨r, hcaptures, -, hpath, -, hdigest⟩ := captures_component hname
  unfold check
  rw [imageId_of_dash hdash, if_neg Bool.false_ne_true, splitDockerDomain_component hname]
  dsimp only
  rw [hremote, if_neg (not_not.mpr (officialName_lower hname lower))]
  unfold parse
  rw [hcaptures]
  dsimp only
  rw [r.lookup_path, r.lookup_digest, hdigest, hpath, Option.getD_some, officialName_length hname]
  unfold repositoryNameTotalLengthMax
  split
  · next hlong => exact ⟨fun h => (by cases h), fun h => absurd h (not_le.mpr hlong)⟩
  · next hshort => exact ⟨fun _ => not_lt.mp hshort, fun _ => rfl⟩

/-- A built image's name is a component; the check refuses it only where it is too long, and reads
it as a path on Docker Hub, without a tag or a digest. -/
theorem built_image_names_valid (lower : Lowercase) {projectName containerName : Text}
    (hproject : isNameComponent projectName = true)
    (hcontainer : isNameComponent containerName = true) :
    isNameComponent (builtImageTag projectName containerName) = true ∧
      (check lower (builtImageTag projectName containerName) = .ok () ↔
        (officialRepoPrefix ++ builtImageTag projectName containerName).length ≤ 255) ∧
      splitDockerDomain lower (builtImageTag projectName containerName) =
        (defaultDomain, officialRepoPrefix ++ builtImageTag projectName containerName) ∧
      ∃ groups, reference.captures (defaultDomain ++ '/' ::
          (officialRepoPrefix ++ builtImageTag projectName containerName)) = some groups ∧
        groups.lookup 1 = some defaultDomain ∧
        groups.lookup 2 = some (officialRepoPrefix ++ builtImageTag projectName containerName) ∧
        groups.lookup 3 = none ∧ groups.lookup 4 = none := by
  have hname : isNameComponent (builtImageTag projectName containerName) = true :=
    isNameComponent_join hproject hcontainer
  have hdash : '-' ∈ builtImageTag projectName containerName :=
    List.mem_append_right _ List.mem_cons_self
  obtain ⟨r, hcaptures, hdomain, hpath, htag, hdigest⟩ := captures_component hname
  refine ⟨hname, check_component lower hname hdash, splitDockerDomain_component hname lower,
    r.groups, hcaptures, ?_⟩
  rw [r.lookup_domain, r.lookup_path, r.lookup_tag, r.lookup_digest, hpath]
  exact ⟨hdomain, rfl, htag, hdigest⟩

theorem built_image_names_valid_shop :
    isNameComponent (builtImageTag "shop__v2".toList "api.web".toList) = true ∧
      check .asciiOnly (builtImageTag "shop__v2".toList "api.web".toList) = .ok () := by
  have h :=
    @built_image_names_valid .asciiOnly "shop__v2".toList "api.web".toList (by decide) (by decide)
  exact ⟨h.1, h.2.1.mpr (by decide)⟩

end Ratect.ImageReference
