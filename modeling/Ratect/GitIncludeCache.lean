import Ratect.EntryLockInvariant

/-! # The entry lock holds, and a working copy is one clone

What the invariant says of every run: who may hold, delete and take over an entry lock, and what the
cache directory holds under a key. -/

namespace Ratect.GitInclude

open Transition (Reachable run)

variable {sha256 : List UInt8 → Digest}

/-- Caller `p` holds the entry lock of `source`.  A caller that has returned or was killed holds
none. -/
def Cache.Holds (sha256 : List UInt8 → Digest) (s : Cache) (p : ℕ) (source : Source) : Prop :=
  ∃ c, s.callers p = some c ∧ cacheKey sha256 c.source = cacheKey sha256 source ∧
    c.stage.holds.isSome

/-- The lock file of `source`. -/
def Cache.LockFile (sha256 : List UInt8 → Digest) (s : Cache) (source : Source) (f : ℕ) : Prop :=
  s.disk.root (lockName (cacheKey sha256 source)) = some (.file f)

/-- The lock is there with its marker, and nobody has its OS lock. -/
structure Cache.Abandoned (sha256 : List UInt8 → Digest) (s : Cache) (source : Source)
    (f : ℕ) : Prop where
  present : s.LockFile sha256 source f
  marked : s.disk.Marked f
  free : s.disk.osLocks f = none

/-- The sources that callers have asked for. -/
def Cache.sources (s : Cache) : Set Source :=
  {source | ∃ p c, s.callers p = some c ∧ c.source = source}

/-! ### Keys -/

theorem RustString.asBytes_injective : Function.Injective RustString.asBytes := by
  intro a b h
  obtain ⟨a, ha⟩ := a
  obtain ⟨b, hb⟩ := b
  have : a = b := by
    apply String.toByteArray_inj.mp
    apply ByteArray.ext
    exact Array.toList_inj.mp h
  subst this
  rfl

theorem RustString.length_asBytes (s : RustString) : s.asBytes.length < 2 ^ 64 := by
  have h := s.fits
  have heq : s.asBytes.length = s.text.utf8ByteSize := by
    rw [asBytes, Array.length_toList]
    rfl
  omega

theorem Source.message_injective : Function.Injective Source.message := by
  intro a b h
  obtain ⟨ra, ga⟩ := a
  obtain ⟨rb, gb⟩ := b
  obtain ⟨hremote, href⟩ := Framing.frame_append_inj ra.length_asBytes rb.length_asBytes h
  have href' : Framing.frame ga.asBytes ++ [] = Framing.frame gb.asBytes ++ [] := by rw [href]
  obtain ⟨href, -⟩ := Framing.frame_append_inj ga.length_asBytes gb.length_asBytes href'
  rw [RustString.asBytes_injective hremote, RustString.asBytes_injective href]

/-- Where SHA-256 tells the sources apart, so do the keys. -/
theorem cacheKey_injOn {sources : Set Source}
    (hsha : Set.InjOn sha256 (Source.message '' sources)) :
    Set.InjOn (cacheKey sha256) sources := by
  intro a ha b hb h
  have hbytes : (sha256 a.message).bytes = (sha256 b.message).bytes := Framing.hex_injective h
  have hdigest : sha256 a.message = sha256 b.message := by
    cases hda : sha256 a.message
    cases hdb : sha256 b.message
    rw [hda, hdb] at hbytes
    cases hbytes
    rfl
  exact Source.message_injective (hsha ⟨a, ha, rfl⟩ ⟨b, hb, rfl⟩ hdigest)

/-! ### Holders -/

theorem Sound.one_holder {s : Cache} (hs : Sound sha256 s) {p q : ℕ} {source : Source}
    (hp : s.Holds sha256 p source) (hq : s.Holds sha256 q source) : p = q := by
  obtain ⟨c, hc, hkey, hholds⟩ := hp
  obtain ⟨d, hd, hkey', hholds'⟩ := hq
  exact hs.same_lock hd hc (hkey.trans hkey'.symm) hholds' hholds

theorem Cache.Holds.of_step {s s' : Cache} {p q : ℕ} {move : Move} {source : Source}
    (hstep : step sha256 s (p, move) = some s') (hne : q ≠ p) (hq : s.Holds sha256 q source) :
    s'.Holds sha256 q source := by
  obtain ⟨d, hd, hrest⟩ := hq
  rcases step_cases hstep with ⟨_, -, -, rfl⟩ | ⟨_, _, _, -, -, rfl⟩
  · exact ⟨d, (Function.update_of_ne hne ..).trans hd, hrest⟩
  · exact ⟨d, (Function.update_of_ne hne ..).trans hd, hrest⟩

/-- A caller comes to hold a lock only while nobody holds it. -/
theorem Sound.not_holds {s s' : Cache} (hs : Sound sha256 s) {p q : ℕ} {move : Move}
    {source : Source} (hstep : GitInclude.step sha256 s (p, move) = some s')
    (hbefore : ¬ s.Holds sha256 p source) (hafter : s'.Holds sha256 p source) :
    ¬ s.Holds sha256 q source := by
  intro hq
  by_cases hne : q = p
  · exact hbefore (hne ▸ hq)
  · exact hne ((hs.step hstep).one_holder (hq.of_step hstep hne) hafter)

theorem Sound.deleted_by_holder {s s' : Cache} (hs : Sound sha256 s) {p : ℕ} {move : Move}
    {source : Source} {f : ℕ} (hstep : GitInclude.step sha256 s (p, move) = some s')
    (hfile : s.LockFile sha256 source f) :
    s'.LockFile sha256 source f ∨
      s.Holds sha256 p source ∧ s'.disk.root (lockName (cacheKey sha256 source)) = none := by
  rcases step_cases hstep with ⟨_, -, -, rfl⟩ | ⟨c, op, new, hc, hnext, rfl⟩
  · exact .inl hfile
  · have hop := next_permitted (hs.callers p c hc) hnext
    have hlength : (cacheKey sha256 source).length = (cacheKey sha256 c.source).length := by simp
    rcases hop.root_lockName hlength with heq | ⟨hkey, hnone, -⟩ | ⟨hkey, hholds, rfl⟩
    · exact .inl (heq.trans hfile)
    · rw [← hkey, hfile] at hnone
      cases hnone
    · exact .inr ⟨⟨c, hc, hkey.symm, hholds⟩, by simp [Op.apply, hkey]⟩

/-! ### Taking over -/

/-- A marked lock stays, with its marker, while the one who acts does not have its OS lock. -/
theorem Sound.marked_lock_kept {s s' : Cache} (hs : Sound sha256 s) {p : ℕ} {move : Move}
    {source : Source} {f : ℕ} (hstep : GitInclude.step sha256 s (p, move) = some s')
    (hfile : s.LockFile sha256 source f) (hmarked : s.disk.Marked f)
    (hfree : s.disk.osLocks f ≠ some p) : s'.LockFile sha256 source f ∧ s'.disk.Marked f := by
  constructor
  · rcases hs.deleted_by_holder hstep hfile with hfile' | ⟨⟨c, hc, hkey, hholds⟩, -⟩
    · exact hfile'
    · obtain ⟨g, hg⟩ := Option.isSome_iff_exists.mp hholds
      have hheld := (hs.callers p c hc).held g hg
      rw [hkey, hfile] at hheld
      cases hheld
      exact absurd ((hs.callers p c hc).covered f hg hmarked) hfree
  · rcases step_cases hstep with ⟨_, -, -, rfl⟩ | ⟨c, op, new, hc, hnext, rfl⟩
    · exact hmarked
    · rcases (next_permitted (hs.callers p c hc) hnext).marked (hs.locks source f hfile) with
          heq | ⟨-, -, hlock⟩
      · exact heq.mpr hmarked
      · exact absurd hlock hfree

/-- When the holder of a marked lock is killed, its lock is abandoned. -/
theorem Sound.abandoned_of_kill {s s' : Cache} (hs : Sound sha256 s) {p f : ℕ} {source : Source}
    (hp : s.Holds sha256 p source) (hfile : s.LockFile sha256 source f) (hmarked : s.disk.Marked f)
    (hstep : GitInclude.step sha256 s (p, .kill) = some s') : s'.Abandoned sha256 source f := by
  obtain ⟨c, hc, hkey, hholds⟩ := hp
  obtain ⟨g, hg⟩ := Option.isSome_iff_exists.mp hholds
  have hheld := (hs.callers p c hc).held g hg
  rw [hkey, hfile] at hheld
  cases hheld
  have hlock := (hs.callers p c hc).covered f hg hmarked
  rcases step_cases hstep with ⟨_, -, hnone, -⟩ | ⟨c', op, new, hc', hnext, rfl⟩
  · simp [hc] at hnone
  · obtain ⟨_, -, heq⟩ := Option.map_eq_some_iff.mp hnext
    cases heq
    exact ⟨hfile, hmarked, by simp [Op.apply, hlock]⟩

/-- An abandoned lock stays so until an attempt takes its OS lock. -/
theorem Sound.abandoned_step {s s' : Cache} (hs : Sound sha256 s) {p f : ℕ} {move : Move}
    {source : Source} (habandoned : s.Abandoned sha256 source f)
    (hstep : GitInclude.step sha256 s (p, move) = some s') :
    s'.Abandoned sha256 source f ∨
      ∃ c, s.callers p = some c ∧ c.stage = .opened f ∧
        s'.callers p = some ⟨c.source, .locked f⟩ := by
  obtain ⟨hfile, hmarked, hfree⟩ := habandoned
  obtain ⟨hfile', hmarked'⟩ := hs.marked_lock_kept hstep hfile hmarked (by simp [hfree])
  rcases step_cases hstep with ⟨_, -, -, rfl⟩ | ⟨c, op, new, hc, hnext, rfl⟩
  · exact .inl ⟨hfile, hmarked, hfree⟩
  · rcases (next_permitted (hs.callers p c hc) hnext).osLocks f with heq | ⟨-, hop, -⟩ | ⟨hlock, -⟩
    · exact .inl ⟨hfile', hmarked', heq.trans hfree⟩
    · rcases (next_transit hnext).locking f hop with ⟨hold, -⟩ | ⟨hold, rfl⟩
      · exact absurd hmarked ((hs.callers p c hc).unmarked f hold)
      · exact .inr ⟨c, hc, hold, Function.update_self ..⟩
    · simp [hfree] at hlock

theorem step_of_next {s : Cache} {p : ℕ} {c : Caller} {move : Move} {op : Op} {new : Stage}
    (hc : s.callers p = some c)
    (hnext : next s.disk (cacheKey sha256 c.source) c.stage move = some (op, new)) :
    step sha256 s (p, move) =
      some ⟨op.apply p c.source s.disk, Function.update s.callers p (some ⟨c.source, new⟩)⟩ := by
  simp [step, hc, hnext]

theorem step_of_nothing {s : Cache} {p : ℕ} {source : Source} {old new : Stage} {move : Move}
    (hc : s.callers p = some ⟨source, old⟩)
    (hnext : next s.disk (cacheKey sha256 source) old move = some (.nothing, new)) :
    ∃ s', step sha256 s (p, move) = some s' ∧ s'.disk = s.disk ∧
      s'.callers p = some ⟨source, new⟩ :=
  ⟨_, step_of_next hc hnext, rfl, Function.update_self ..⟩

/-- Where an attempt stands that has the OS lock of an abandoned lock, call by call. -/
def takingOver (f : ℕ) : ℕ → Stage
  | 0 => .locked f
  | 1 => .verified f
  | 2 => .remarking f
  | _ => .holding f .rechecking

/-- An attempt of `p` takes the lock over and is `n` calls past its OS lock. -/
structure TakingOver (sha256 : List UInt8 → Digest) (s : Cache) (p : ℕ) (source : Source)
    (f n : ℕ) : Prop where
  stands : s.callers p = some ⟨source, takingOver f n⟩
  present : s.LockFile sha256 source f
  marked : s.disk.Marked f
  own : s.disk.osLocks f = some p

theorem firstLine_append {line rest : Text} (hline : ∀ c ∈ line, c ≠ '\n')
    (hlast : line.getLast? ≠ some '\r') : firstLine (line ++ '\n' :: rest) = some line := by
  have htake : (line ++ '\n' :: rest).takeWhile (· ≠ '\n') = line := by
    rw [List.takeWhile_append_of_pos (by simpa using hline)]
    simp
  have hne : line ++ '\n' :: rest ≠ [] := by simp
  simp only [firstLine, htake, hlast, hne, and_false, if_false]

theorem marked_writeMarker (content : Text) : firstLine (writeMarker content) = some marker := by
  have hwritten : writeMarker content = marker ++ '\n' :: content.drop (marker ++ ['\n']).length :=
    List.append_assoc ..
  have hline : marker.all (· ≠ '\n') = true := by rfl
  rw [hwritten]
  exact firstLine_append (by simpa using hline) (by decide)

theorem Sound.takingOver_other {s s' : Cache} (hs : Sound sha256 s) {p q f n : ℕ} {move : Move}
    {source : Source} (h : TakingOver sha256 s p source f n)
    (hstep : GitInclude.step sha256 s (q, move) = some s') (hne : p ≠ q) :
    TakingOver sha256 s' p source f n := by
  have hkept := hs.marked_lock_kept hstep h.present h.marked (by simp [h.own, hne])
  rcases step_cases hstep with ⟨_, -, -, rfl⟩ | ⟨c, op, new, hc, hnext, rfl⟩
  · exact ⟨(Function.update_of_ne hne ..).trans h.stands, hkept.1, hkept.2, h.own⟩
  · have hop := next_permitted (hs.callers q c hc) hnext
    exact ⟨(Function.update_of_ne hne ..).trans h.stands, hkept.1, hkept.2,
      (hop.osLocks_other hne).mpr h.own⟩

theorem takingOver_own {s : Cache} {p f n : ℕ} {source : Source}
    (h : TakingOver sha256 s p source f n) (hn : n < 3) :
    ∃ s', step sha256 s (p, .go) = some s' ∧ TakingOver sha256 s' p source f (n + 1) := by
  obtain ⟨hstands, hfile, hmarked, hown⟩ := h
  have hfile' : s.disk.root (lockName (cacheKey sha256 source)) = some (.file f) := hfile
  obtain rfl | rfl | rfl : n = 0 ∨ n = 1 ∨ n = 2 := by omega
  · have hnext : next s.disk (cacheKey sha256 source) (.locked f) .go =
        some (.nothing, .verified f) := by
      simp [next, attempt, hfile']
    exact ⟨_, step_of_next hstands hnext, Function.update_self .., hfile, hmarked, hown⟩
  · have hnext : next s.disk (cacheKey sha256 source) (.verified f) .go =
        some (.nothing, .remarking f) := by
      simp [next, attempt, hmarked]
    exact ⟨_, step_of_next hstands hnext, Function.update_self .., hfile, hmarked, hown⟩
  · have hnext : next s.disk (cacheKey sha256 source) (.remarking f) .go =
        some (.mark f, .holding f .rechecking) := by
      simp [next, attempt]
    refine ⟨_, step_of_next hstands hnext, Function.update_self .., hfile, ?_, hown⟩
    simp [Op.apply, Disk.Marked, marked_writeMarker]

/-- Whatever the others do in between, an attempt that has the OS lock of an abandoned lock takes it
over. -/
theorem Sound.takingOver_run {s s' : Cache} (hs : Sound sha256 s) {p f n : ℕ} {source : Source}
    (h : TakingOver sha256 s p source f n) {events : List (ℕ × Move)}
    (hgo : ∀ event ∈ events, event.1 = p → event.2 = .go)
    (hn : n + events.countP (fun event => event.1 = p) ≤ 3)
    (hrun : run (GitInclude.step sha256) s events = some s') :
    TakingOver sha256 s' p source f (n + events.countP (fun event => event.1 = p)) := by
  induction events generalizing s n with
  | nil =>
      obtain rfl := Option.some.inj hrun
      exact h
  | cons event events ih =>
      obtain ⟨mid, hmid, hrest⟩ := Option.bind_eq_some_iff.mp hrun
      have hgo' : ∀ e ∈ events, e.1 = p → e.2 = .go := fun e he => hgo e (List.mem_cons_of_mem _ he)
      obtain ⟨q, move⟩ := event
      by_cases hq : q = p
      · subst hq
        obtain rfl : move = .go := hgo (q, move) List.mem_cons_self rfl
        simp only [List.countP_cons, decide_true, if_true] at hn ⊢
        obtain ⟨mid', hmid', hmidway⟩ := takingOver_own h (by omega)
        obtain rfl : mid = mid' := Option.some.inj (hmid.symm.trans hmid')
        have hdone := ih (hs.step hmid) hmidway hgo' (by omega) hrest
        rwa [Nat.add_right_comm] at hdone
      · simp only [List.countP_cons, hq, decide_false, Bool.false_eq_true, if_false,
          Nat.add_zero] at hn ⊢
        exact ih (hs.step hmid) (hs.takingOver_other h hmid (Ne.symm hq)) hgo' hn hrest

theorem locks_abandoned {s : Cache} {p f : ℕ} {source : Source} (h : s.Abandoned sha256 source f)
    (hp : s.callers p = some ⟨source, .opened f⟩) :
    ∃ s', step sha256 s (p, .go) = some s' ∧ TakingOver sha256 s' p source f 0 := by
  have hnext : next s.disk (cacheKey sha256 source) (.opened f) .go =
      some (.osLock f, .locked f) := by
    simp [next, attempt, h.free]
  exact ⟨_, step_of_next hp hnext, Function.update_self .., h.present, h.marked, by simp [Op.apply]⟩

/-- The first attempt to reach the OS lock of an abandoned lock acquires the lock. -/
theorem Sound.first_acquires {s s' : Cache} (hs : Sound sha256 s) {p f : ℕ} {source : Source}
    (h : s.Abandoned sha256 source f) (hp : s.callers p = some ⟨source, .opened f⟩)
    {events : List (ℕ × Move)} (hgo : ∀ event ∈ events, event.1 = p → event.2 = .go)
    (hn : events.countP (fun event => event.1 = p) = 3)
    (hrun : run (GitInclude.step sha256) s ((p, .go) :: events) = some s') :
    s'.callers p = some ⟨source, .holding f .rechecking⟩ := by
  obtain ⟨mid, hmid, hrun⟩ := Option.bind_eq_some_iff.mp hrun
  obtain ⟨mid', hmid', htaking⟩ := locks_abandoned h hp
  obtain rfl : mid = mid' := Option.some.inj (hmid.symm.trans hmid')
  have hdone := (hs.step hmid).takingOver_run htaking hgo (by omega) hrun
  rw [hn] at hdone
  exact hdone.stands

/-- An attempt that nobody disturbs acquires an abandoned lock. -/
theorem attempt_acquires {s : Cache} {p f : ℕ} {source : Source} (h : s.Abandoned sha256 source f)
    (hp : s.callers p = some ⟨source, .creating⟩) :
    ∃ s', run (step sha256) s (List.replicate 6 (p, .go)) = some s' ∧
      s'.callers p = some ⟨source, .holding f .rechecking⟩ := by
  have hfile : s.disk.root (lockName (cacheKey sha256 source)) = some (.file f) := h.present
  have hcreate : next s.disk (cacheKey sha256 source) .creating .go =
      some (.nothing, .opening) := by
    simp [next, attempt, hfile]
  obtain ⟨s₁, hstep₁, hdisk₁, h₁⟩ := step_of_nothing hp hcreate
  have hopen : next s₁.disk (cacheKey sha256 source) .opening .go = some (.nothing, .opened f) := by
    simp [next, attempt, hdisk₁, hfile]
  obtain ⟨s₂, hstep₂, hdisk₂, h₂⟩ := step_of_nothing h₁ hopen
  rw [hdisk₁] at hdisk₂
  have habandoned : s₂.Abandoned sha256 source f := by
    constructor
    · rw [Cache.LockFile, hdisk₂, hfile]
    · rw [hdisk₂]
      exact h.marked
    · rw [hdisk₂, h.free]
  obtain ⟨s₃, hstep₃, h₃⟩ := locks_abandoned habandoned h₂
  obtain ⟨s₄, hstep₄, h₄⟩ := takingOver_own h₃ (by omega)
  obtain ⟨s₅, hstep₅, h₅⟩ := takingOver_own h₄ (by omega)
  obtain ⟨s₆, hstep₆, h₆⟩ := takingOver_own h₅ (by omega)
  refine ⟨s₆, ?_, h₆.stands⟩
  simp [List.replicate, run, hstep₁, hstep₂, hstep₃, hstep₄, hstep₅, hstep₆]

/-! ### Staging directories -/

/-- No call removes the staging directory of a clone that is running, and no other caller's call
changes it. -/
theorem Sound.staging_kept {s s' : Cache} (hs : Sound sha256 s) {p q f : ℕ} {move : Move}
    {source : Source} {unique : Text} {node : Node}
    (hp : s.callers p = some ⟨source, .holding f (.cloning unique)⟩)
    (hnode : s.disk.root (stagingName (cacheKey sha256 source) unique) = some node)
    (hstep : GitInclude.step sha256 s (q, move) = some s') :
    (s'.disk.root (stagingName (cacheKey sha256 source) unique)).isSome ∧
      (q ≠ p → s'.disk.root (stagingName (cacheKey sha256 source) unique) = some node) := by
  rcases step_cases hstep with ⟨_, -, -, rfl⟩ | ⟨c, op, new, hc, hnext, rfl⟩
  · exact ⟨by simp [hnode], fun _ => hnode⟩
  · by_cases hq : q = p
    · subst hq
      obtain rfl : c = ⟨source, .holding f (.cloning unique)⟩ := Option.some.inj (hc.symm.trans hp)
      refine ⟨?_, fun hne => absurd rfl hne⟩
      cases move with
      | go | fail | part | kill =>
          obtain ⟨rfl, rfl⟩ := Prod.mk.inj (Option.some.inj hnext)
          simp [Op.apply, hnode]
      | _ => cases hnext
    · have hop := next_permitted (hs.callers q c hc) hnext
      have hlength : (cacheKey sha256 source).length = (cacheKey sha256 c.source).length := by simp
      rcases hop.root_stagingName hlength with heq | ⟨hkey, hunique | ⟨hholds, -⟩⟩
      · rw [heq, hnode]
        exact ⟨rfl, fun _ => rfl⟩
      · exact absurd (hs.apart q p c _ unique hc hp hunique rfl) hq
      · exact absurd (hs.same_lock hp hc hkey.symm rfl hholds) hq

/-! ### Every run -/

/-- What the cache promises in a state, and of the calls that can follow it. -/
structure Cache.Safe (sha256 : List UInt8 → Digest) (s : Cache) : Prop where
  one_holder : ∀ source p q, s.Holds sha256 p source → s.Holds sha256 q source → p = q
  deleted_by_holder : ∀ p move s', step sha256 s (p, move) = some s' → ∀ source f,
    s.LockFile sha256 source f →
    s'.LockFile sha256 source f ∨
      s.Holds sha256 p source ∧ s'.disk.root (lockName (cacheKey sha256 source)) = none
  -- a marked lock is abandoned by its holder's death, and stays so until the next attempt locks it
  abandoned : ∀ p f source s',
    s.Holds sha256 p source → s.LockFile sha256 source f → s.disk.Marked f →
    step sha256 s (p, .kill) = some s' → s'.Abandoned sha256 source f
  stays_abandoned : ∀ p move f source s', s.Abandoned sha256 source f →
    step sha256 s (p, move) = some s' →
    s'.Abandoned sha256 source f ∨
      ∃ c, s.callers p = some c ∧ c.stage = .opened f ∧ s'.callers p = some ⟨c.source, .locked f⟩
  acquired : ∀ p f source, s.Abandoned sha256 source f → s.callers p = some ⟨source, .creating⟩ →
    ∃ s', run (step sha256) s (List.replicate 6 (p, .go)) = some s' ∧
      s'.callers p = some ⟨source, .holding f .rechecking⟩
  acquired_among_others : ∀ p f source events s', s.Abandoned sha256 source f →
    s.callers p = some ⟨source, .opened f⟩ → (∀ event ∈ events, event.1 = p → event.2 = .go) →
    events.countP (fun event => event.1 = p) = 3 →
      run (step sha256) s ((p, .go) :: events) = some s' →
    s'.callers p = some ⟨source, .holding f .rechecking⟩
  -- who comes to hold a lock finds it held by nobody, and holds it by the file that is there
  not_from_alive : ∀ p move s', step sha256 s (p, move) = some s' → ∀ source,
    ¬ s.Holds sha256 p source →
    s'.Holds sha256 p source → ∀ q, ¬ s.Holds sha256 q source
  held_file : ∀ p c f, s.callers p = some c → c.stage.holds = some f → s.LockFile sha256 c.source f
  working_copy : ∀ source ∈ s.sources, ∀ node, s.disk.root (cacheKey sha256 source) = some node →
    ∃ p, node = .directory (.clone source p) ∧ s.disk.cloned p = some source
  staging_kept : ∀ p q move f source unique node s',
    s.callers p = some ⟨source, .holding f (.cloning unique)⟩ →
    s.disk.root (stagingName (cacheKey sha256 source) unique) = some node →
      step sha256 s (q, move) = some s' →
    (s'.disk.root (stagingName (cacheKey sha256 source) unique)).isSome ∧
      (q ≠ p → s'.disk.root (stagingName (cacheKey sha256 source) unique) = some node)
  keys_apart : Set.InjOn (cacheKey sha256) s.sources

/-- In every run, whatever the interleaving and whoever is killed, the cache is safe, where SHA-256
has no collision among the sources asked for. -/
theorem cache_safe (sha256 : List UInt8 → Digest) {s : Cache}
    (hreach : Reachable (step sha256) Cache.new s)
    (hsha : Set.InjOn sha256 (Source.message '' s.sources)) : s.Safe sha256 := by
  have hs := sound_of_reachable hreach
  constructor
  case one_holder => exact fun source p q hp hq => hs.one_holder hp hq
  case deleted_by_holder =>
    exact fun p move s' hstep source f hfile => hs.deleted_by_holder hstep hfile
  case abandoned =>
    exact fun p f source s' hp hfile hmarked hstep => hs.abandoned_of_kill hp hfile hmarked hstep
  case stays_abandoned =>
    exact fun p move f source s' habandoned hstep => hs.abandoned_step habandoned hstep
  case acquired => exact fun p f source habandoned hp => attempt_acquires habandoned hp
  case acquired_among_others =>
    exact fun p f source events s' habandoned hp hgo hn hrun =>
      hs.first_acquires habandoned hp hgo hn hrun
  case not_from_alive =>
    exact fun p move s' hstep source hbefore hafter q => hs.not_holds hstep hbefore hafter
  case held_file => exact fun p c f hc hholds => (hs.callers p c hc).held f hholds
  case working_copy =>
    intro source hsource node hnode
    obtain ⟨p, clone, rfl, hcloned, hkey⟩ := hs.working source node hnode
    obtain ⟨c, hc, rfl⟩ := hs.history p clone hcloned
    obtain rfl : c.source = source := cacheKey_injOn hsha ⟨p, c, hc, rfl⟩ hsource hkey
    exact ⟨p, rfl, hcloned⟩
  case staging_kept =>
    exact fun p q move f source unique node s' hp hnode hstep => hs.staging_kept hp hnode hstep
  case keys_apart => exact cacheKey_injOn hsha

/-! ### A load killed while it clones, and one that takes its lock over -/

/-- Whoever asks for a source has started with it. -/
theorem started_of_run {events : List (ℕ × Move)} {s s' : Cache}
    (hrun : run (step sha256) s events = some s') {source : Source} (h : source ∈ s'.sources) :
    source ∈ s.sources ∨ ∃ p, (p, .start source) ∈ events := by
  induction events generalizing s with
  | nil =>
      obtain rfl := Option.some.inj hrun
      exact .inl h
  | cons event events ih =>
      obtain ⟨mid, hmid, hrest⟩ := Option.bind_eq_some_iff.mp hrun
      rcases ih hrest with ⟨q, c, hc, rfl⟩ | ⟨p, hp⟩
      · obtain ⟨p, move⟩ := event
        by_cases hq : q = p
        · subst hq
          rcases step_cases hmid with ⟨source, rfl, -, rfl⟩ | ⟨d, op, new, hd, -, rfl⟩
          · simp only [Function.update_self, Option.some.injEq] at hc
            subst hc
            exact .inr ⟨q, List.mem_cons_self⟩
          · simp only [Function.update_self, Option.some.injEq] at hc
            subst hc
            exact .inl ⟨q, d, hd, rfl⟩
        · rcases step_cases hmid with ⟨source, -, -, rfl⟩ | ⟨d, op, new, hd, -, rfl⟩
          · exact .inl ⟨q, c, (Function.update_of_ne hq ..).symm.trans hc, rfl⟩
          · exact .inl ⟨q, c, (Function.update_of_ne hq ..).symm.trans hc, rfl⟩
      · exact .inr ⟨p, List.mem_cons_of_mem _ hp⟩

def sourceV1 : Source := ⟨⟨"a.git", by decide⟩, ⟨"v1", by decide⟩⟩

def sourceV2 : Source := ⟨⟨"a.git", by decide⟩, ⟨"v2", by decide⟩⟩

def digestV1 : Digest where
  bytes :=
    [117, 131, 173, 12, 194, 42, 200, 235, 171, 59, 20, 107, 136, 178, 66, 69, 211,
      231, 177, 187, 75, 178,
    210, 189, 168, 45, 140, 138, 209, 131, 108, 65]
  length_bytes := by decide

def digestV2 : Digest where
  bytes :=
    [236, 50, 158, 85, 48, 20, 170, 237, 214, 196, 60, 142, 34, 96, 204, 132, 104, 41,
      56, 24, 137, 150, 34,
    127, 141, 138, 236, 54, 91, 57, 81, 131]
  length_bytes := by decide

/-- SHA-256 on the two sources. -/
def sha256OfTwo (message : List UInt8) : Digest :=
  if message = sourceV1.message then digestV1 else digestV2

/-- Caller `0` is killed while it clones.  Caller `1` takes its lock over, removes its staging
directory and clones.  Caller `2` asks for another ref. -/
def takeOverEvents : List (ℕ × Move) :=
  [(0, .start sourceV1), (0, .go), (0, .go), (0, .go), (0, .go), (0, .go), (0, .go),
    (0, .draw "u0".toList),
    (0, .part), (0, .kill), (1, .start sourceV1), (1, .go), (1, .go), (1, .go),
    (1, .go), (1, .go), (1, .go),
    (1, .go),
    (1, .go),
    (1, .entry (stagingName (cacheKey sha256OfTwo sourceV1) "u0".toList)), (1, .go), (1, .go),
    (1, .draw "u1".toList), (1, .go), (1, .go), (2, .start sourceV2)]

theorem takeOver_runs : (run (step sha256OfTwo) Cache.new takeOverEvents).map
      (fun s => ((s.disk.root (cacheKey sha256OfTwo sourceV1)).isSome,
        (s.callers 1).bind (·.stage.holds),
        (s.callers 2).isSome)) = some (true, some 0, true) := by
  decide +kernel

theorem started_takeOver {s : Cache}
    (hrun : run (step sha256OfTwo) Cache.new takeOverEvents = some s) {source : Source}
    (h : source ∈ s.sources) : source = sourceV1 ∨ source = sourceV2 := by
  rcases started_of_run hrun h with ⟨p, c, hc, -⟩ | ⟨p, hp⟩
  · cases hc
  · simp [takeOverEvents] at hp
    tauto

theorem injOn_sha256OfTwo {sources : Set Source}
    (h : ∀ source ∈ sources, source = sourceV1 ∨ source = sourceV2) :
    Set.InjOn sha256OfTwo (Source.message '' sources) := by
  have hne : digestV1 ≠ digestV2 := fun heq => absurd (congrArg Digest.bytes heq) (by decide)
  have hV1 : sha256OfTwo sourceV1.message = digestV1 := if_pos rfl
  have hV2 : sha256OfTwo sourceV2.message = digestV2 := if_neg (by decide)
  rintro _ ⟨a, ha, rfl⟩ _ ⟨b, hb, rfl⟩ heq
  rcases h a ha with rfl | rfl <;> rcases h b hb with rfl | rfl
  · rfl
  · rw [hV1, hV2] at heq
    exact absurd heq hne
  · rw [hV1, hV2] at heq
    exact absurd heq.symm hne
  · rfl

theorem cache_safe_taken_over : ∃ s, run (step sha256OfTwo) Cache.new takeOverEvents = some s ∧
    (s.disk.root (cacheKey sha256OfTwo sourceV1)).isSome = true ∧ s.Safe sha256OfTwo := by
  obtain ⟨s, hrun, hs⟩ := Option.map_eq_some_iff.mp takeOver_runs
  refine ⟨s, hrun, congrArg Prod.fst hs, ?_⟩
  exact cache_safe sha256OfTwo (Transition.reachable_of_run .start hrun)
    (injOn_sha256OfTwo fun _ h => started_takeOver hrun h)

end Ratect.GitInclude
