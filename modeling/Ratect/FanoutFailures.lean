import Ratect.FanoutProperties

/-! # Failures

What a failure does to the others.  Where every join is fail-fast, the first failure ends the run at
once (`failed_at_once`), so that calls of one place in a script are made at most once
(`issued_once`).  Whatever the joins do, a cell that failed keeps its callers from succeeding
(`Blamed`): where the top cell succeeded, nothing had failed (`failures_of_ok`). -/

namespace Fanout

open Transition (Reachable)

variable {K R A : Type}
variable {sys : System K R A} {rank : Ranking K} {capped : R → Prop} {pre : K → Bool}

/-! ### Fail-fast joins: the first failure is the end -/

section fast

/-- Every `try_join_all` of the script is fail-fast. -/
def Quick (fast : ℕ → Bool) : Script K R A → Prop
  | .done => True
  | .fail => True
  | .join groups next => (∀ group ∈ groups, fast group.length = true) ∧ Quick fast next
  | .acquire next => Quick fast next
  | .release next => Quick fast next
  | .call _ next => ∀ a, Quick fast (next a)

theorem Quick.hereditary (fast : ℕ → Bool) : Hereditary (Quick (K := K) (R := R) (A := A) fast) :=
  ⟨fun _ _ h => h.2, fun _ h => h, fun _ h => h, fun _ _ h => h⟩

/-- Every running initialiser has only fail-fast joins ahead. -/
def QuickInv (sys : System K R A) (s : State K R A) : Prop :=
  ∀ k job, s.cells k = .running job → Quick sys.fast job.script

/-- No cell has failed with anything but `f`. -/
def OnlyFailure (s : State K R A) (f : K) : Prop := ∀ c g, s.cells c = .settled (.error g) → g = f

/-- A fail-fast join returns the failure of any entry. -/
theorem joinFailure_eq {s : State K R A} {f k : K} {groups : List (List K)}
    (honly : OnlyFailure s f) (hfast : ∀ group ∈ groups, sys.fast group.length = true)
    (hk : k ∈ groups.flatten) (hf : s.cells k = .settled (.error f)) :
    joinFailure sys s groups = some f := by
  have hfailure : ∀ c g, s.failureOf c = some g → g = f := by
    intro c g hg
    unfold State.failureOf at hg
    split at hg
    · next hc =>
        obtain rfl := Option.some.inj hg
        exact honly c _ hc
    · cases hg
  obtain ⟨group, hgroup, hkg⟩ := List.mem_flatten.mp hk
  have hsome : ∃ g, joinFailure sys s groups = some g := by
    unfold joinFailure
    rw [← Option.isSome_iff_exists, List.findSome?_isSome_iff]
    refine ⟨group, hgroup, ?_⟩
    unfold groupFailure
    rw [if_pos (hfast group hgroup), List.findSome?_isSome_iff]
    exact ⟨k, hkg, by simp [State.failureOf, hf]⟩
  obtain ⟨g, hg⟩ := hsome
  rw [hg]
  unfold joinFailure at hg
  obtain ⟨group', hgroup', hg⟩ := List.exists_of_findSome?_eq_some hg
  unfold groupFailure at hg
  rw [if_pos (hfast group' hgroup')] at hg
  obtain ⟨c, _, hg⟩ := List.exists_of_findSome?_eq_some hg
  rw [hfailure c g hg]

/-- The running initialisers are nested in their callers. -/
structure Nested (sys : System K R A) (rank : Ranking K) (s : State K R A) : Prop where
  placed : ∀ k job, s.cells k = .running job → Placed sys s k job.stack
  above : ∀ k job, s.cells k = .running job → ∀ p ∈ job.stack, rank k < rank p

theorem Placed.congr {s s' : State K R A} (hcells : s'.cells = s.cells) {k : K} {stack : List K}
    (h : Placed sys s k stack) : Placed sys s' k stack := by
  cases stack with
  | nil => exact h
  | cons p stack =>
      obtain ⟨groups, next, sent, hp, hmem⟩ := h
      exact ⟨groups, next, sent, by rw [hcells, hp], hmem⟩

theorem Nested.congr {s s' : State K R A} (hcells : s'.cells = s.cells) (h : Nested sys rank s) :
    Nested sys rank s' := by
  refine ⟨fun k job hk => ?_, fun k job hk => ?_⟩
  · rw [hcells] at hk
    exact (h.placed k job hk).congr hcells
  · rw [hcells] at hk
    exact h.above k job hk

theorem QuickInv.congr {s s' : State K R A} (hcells : s'.cells = s.cells) (h : QuickInv sys s) :
    QuickInv sys s' := by
  intro k job hk
  rw [hcells] at hk
  exact h k job hk

variable [DecidableEq K]

theorem OnlyFailure.settle {s : State K R A} {f : K} (h : OnlyFailure s f) (k : K) :
    OnlyFailure (s.settle k (.error f)) f := by
  intro c g hc
  rw [s.settle_cells] at hc
  split_ifs at hc with hck hruns
  · exact (Except.error.inj (Status.settled.inj hc)).symm
  · exact h c g hc

theorem Inv.nested {s : State K R A} {except : Option K} (h : Inv sys rank capped except s) :
    Nested sys rank s := ⟨h.placed, h.above⟩

theorem Nested.settle {s : State K R A} (h : Nested sys rank s) (k : K) (r : Except K Unit) :
    Nested sys rank (s.settle k r) :=
  ⟨settle_placed h.placed, fun c job hc => h.above c job (s.settle_running.mp hc).2.2⟩

theorem QuickInv.settle {s : State K R A} (h : QuickInv sys s) (k : K) (r : Except K Unit) :
    QuickInv sys (s.settle k r) := fun c job hc => h c job (s.settle_running.mp hc).2.2

/-- Through fail-fast joins a failure reaches the top in one step. -/
theorem failUp_top {stack : List K} {k f : K} {s : State K R A} (h : Nested sys rank s)
    (hquick : QuickInv sys s) (hplaced : Placed sys s k stack)
    (habove : ∀ p ∈ stack, rank k < rank p) (honly : OnlyFailure s f) :
    (failUp sys stack k f s).cells sys.top = .settled (.error f) := by
  induction stack generalizing k s with
  | nil =>
      obtain rfl : k = sys.top := hplaced
      exact s.settle_cells_self _ _
  | cons p stack ih =>
      obtain ⟨groups, next, sent, hp, hmem⟩ := hplaced
      have hkp : p ≠ k := by
        rintro rfl
        exact absurd (habove p List.mem_cons_self) (lt_irrefl _)
      have hkstack : k ∉ stack := fun hk =>
        absurd (habove k (List.mem_cons_of_mem _ hk)) (lt_irrefl _)
      have hs := h.settle k (.error f)
      have hp' : (s.settle k (.error f)).cells p = .running ⟨stack, .join groups next, sent⟩ :=
        s.settle_running.mpr ⟨hkp, hkstack, hp⟩
      have hfail := joinFailure_eq (honly.settle k) (hquick p _ hp).1 hmem (s.settle_cells_self k _)
      unfold failUp
      simp only [hp', hfail]
      exact ih hs (hquick.settle k _) (hs.placed p _ hp') (hs.above p _ hp') (honly.settle k)

/-- An initialiser goes on inside of its caller. -/
theorem Arrives.placed {s : State K R A} (h : Inv sys rank capped none s) {k : K} {stack : List K}
    {script : Script K R A}
    (harr : Arrives sys s k stack script) :
    Placed sys s k stack ∧ ∀ p ∈ stack, rank k < rank p := by
  cases harr with
  | @claimed p stack groups next sent hp hmem hk =>
      refine ⟨⟨groups, next, sent, hp, hmem⟩, fun q hq => ?_⟩
      have hkp := ((h.job p _ hp (by simp)).ranked.1 k hmem).2
      rcases List.mem_cons.mp hq with rfl | hq
      · exact hkp
      · exact hkp.trans (h.above p _ hp q hq)
  | resumed hk _ => exact ⟨h.placed k _ hk, h.above k _ hk⟩
  | acquired hk => exact ⟨h.placed k _ hk, h.above k _ hk⟩
  | answered _ hk => exact ⟨h.placed k _ hk, h.above k _ hk⟩

variable [DecidableEq R]

/-- Nothing has failed, or one cell has and the top cell has failed with it. -/
def FailInv (sys : System K R A) (s : State K R A) : Prop :=
  (s.failures = [] ∧ ∀ c f, s.cells c ≠ .settled (.error f)) ∨
    ∃ f, s.failures = [f] ∧ s.cells sys.top = .settled (.error f)

theorem step_failInv {s s' : State K R A} {e : Event K A} (hinv : Inv sys rank capped none s)
    (hquick : QuickInv sys s) (h : FailInv sys s)
    (hstep : step sys s e = some s') : FailInv sys s' := by
  rcases h with ⟨hnil, hnone⟩ | ⟨f, _, htop⟩
  swap
  · rw [step_eq_none_of_settled hinv htop e] at hstep
    cases hstep
  rcases step_shape hstep with
      ⟨k, stack, request, next, _, hk, rfl⟩ | ⟨k, f, kjob, groups, next, hk, _, hf, rfl⟩ |
      ⟨stack, script, s₀, harr, hcells, _, hfailures, rfl⟩
  · refine .inl ⟨hnil, fun c f hc => ?_⟩
    dsimp only at hc
    rw [s.put_cells] at hc
    split_ifs at hc with hck
    exact hnone c f hc
  · rw [joinFailure_eq_none hnone] at hf
    cases hf
  · generalize e.actor = k at harr ⊢
    obtain ⟨s₁, hsame, hcase⟩ := advance_cases sys k stack script s₀
    have hcells₁ : s₁.cells = s.cells := hsame.cells.trans hcells
    have hfailures₁ : s₁.failures = [] := (hsame.failures.trans hfailures).trans hnil
    rcases hcase with ⟨_, heq⟩ | ⟨_, heq⟩ | ⟨_, heq⟩
    · rw [heq]
      refine .inl ⟨hfailures₁, fun c f hc => ?_⟩
      rw [s₁.settle_cells] at hc
      split_ifs at hc with hck hruns
      · cases hc
      · rw [hcells₁] at hc
        exact hnone c f hc
    · rw [heq]
      obtain ⟨hplaced, habove⟩ := harr.placed hinv
      have hopen : Open { s₁ with failures := s₁.failures ++ [k] } k := by
        intro r hr
        dsimp only at hr
        rw [hcells₁] at hr
        exact harr.isOpen r hr
      refine .inr ⟨k, ?_, failUp_top (hinv.nested.congr hcells₁) (hquick.congr hcells₁)
        (hplaced.congr hcells₁) habove ?_⟩
      · rw [(failUp_record sys _ _ hopen).2]
        dsimp only
        rw [hfailures₁, List.nil_append]
      · intro c g hc
        dsimp only at hc
        rw [hcells₁] at hc
        exact absurd hc (hnone c g)
    · rw [heq]
      refine .inl ⟨hfailures₁, fun c f hc => ?_⟩
      rw [s₁.put_cells] at hc
      split_ifs at hc with hck
      rw [hcells₁] at hc
      exact hnone c f hc

/-- Where every join is fail-fast, a failure has ended the run at once: the top cell has failed
with it, and no step is possible any more. -/
theorem failed_at_once (hwf : WellFormed sys rank capped)
    (hquick : ∀ k, Quick sys.fast (sys.script k)) {s : State K R A}
    (h : Reachable (step sys) (initial sys pre) s) : FailInv sys s := by
  have hstart : FailInv sys (initial sys pre) := by
    refine .inl ⟨rfl, fun c f hc => ?_⟩
    unfold initial at hc
    dsimp only at hc
    split_ifs at hc
    cases hc
  apply h.invariant hstart
  · intro s e s' hr hs hstep
    have hquick' : QuickInv sys s :=
      reachable_scripts (fun _ => Quick.hereditary sys.fast) hquick hr
    exact step_failInv (reachable_inv hwf hr) hquick' hs hstep

/-- A step that fails sends nothing. -/
theorem step_unanswered {s s' : State K R A} {e : Event K A} (h : step sys s e = some s')
    (hne : s'.failures ≠ s.failures) : s'.unanswered.Sublist s.unanswered := by
  have hkeep {k : K} {stack : List K} {script : Script K R A} {s₀ : State K R A}
      (hk : Open s₀ k) (hsub : s₀.unanswered.Sublist s.unanswered) :
      (advance sys k stack script s₀).unanswered.Sublist s.unanswered := by
    rw [(advance_record hk).unanswered]
    exact hsub
  cases step_cases h with
  | claim _ _ hk =>
      refine hkeep (fun r hr => ?_) (List.Sublist.refl _)
      rw [hk] at hr
      cases hr
  | resume hp _ =>
      refine hkeep (fun r hr => ?_) (List.Sublist.refl _)
      rw [hp] at hr
      cases hr
  | observe hp _ =>
      have hopen : Open s _ := fun r hr => by rw [hp] at hr; cases hr
      rw [(failUp_record sys _ _ hopen).1.unanswered]
  | acquire hp _ =>
      refine hkeep (fun r hr => ?_) (List.Sublist.refl _)
      dsimp only at hr
      rw [hp] at hr
      cases hr
  | send _ => exact absurd rfl hne
  | answer hp =>
      refine hkeep (fun r hr => ?_) List.erase_sublist
      dsimp only at hr
      rw [hp] at hr
      cases hr

/-- Where every join is fail-fast, the permits bound the unanswered capped calls to the end: the
step that fails sends nothing, and it is the last one. -/
theorem capped_unanswered_of_quick (hwf : WellFormed sys rank capped) [DecidablePred capped]
    (hquick : ∀ k, Quick sys.fast (sys.script k)) {s : State K R A}
    (h : Reachable (step sys) (initial sys pre) s) {n : ℕ} (hcap : sys.cap = some n) :
    (s.unanswered.filter fun c => decide (capped c.2)).length ≤ n := by
  refine h.invariant (P := fun s => (s.unanswered.filter fun c => decide (capped c.2)).length ≤ n)
    (by simp [initial]) ?_
  intro s e s' hr hs hstep
  by_cases hnil' : s'.failures = []
  · exact capped_unanswered hwf (hr.next hstep) hnil' hcap
  by_cases hnil : s.failures = []
  · have hsub := step_unanswered hstep (by rw [hnil]; exact hnil')
    exact (hsub.filter _).length_le.trans hs
  · rcases failed_at_once hwf hquick hr with ⟨hnone, _⟩ | ⟨f, _, htop⟩
    · exact absurd hnone hnil
    · rw [step_eq_none_of_settled (reachable_inv hwf hr) htop] at hstep
      cases hstep

end fast

/-! ### Calls made at most once -/

/-- The script never makes the call. -/
def Avoids (request : R) : Script K R A → Prop
  | .done => True
  | .fail => True
  | .join _ next => Avoids request next
  | .acquire next => Avoids request next
  | .release next => Avoids request next
  | .call request' next => request' ≠ request ∧ ∀ a, Avoids request (next a)

/-- The script makes the call at most once. -/
def Once (request : R) : Script K R A → Prop
  | .done => True
  | .fail => True
  | .join _ next => Once request next
  | .acquire next => Once request next
  | .release next => Once request next
  | .call request' next =>
      (request' = request → ∀ a, Avoids request (next a)) ∧ ∀ a, Once request (next a)

theorem Avoids.hereditary (request : R) : Hereditary (Avoids (K := K) (A := A) request) :=
  ⟨fun _ _ h => h, fun _ h => h, fun _ h => h, fun _ _ h => h.2⟩

theorem Once.hereditary (request : R) : Hereditary (Once (K := K) (A := A) request) :=
  ⟨fun _ _ h => h, fun _ h => h, fun _ h => h, fun _ _ h => h.2⟩

/-- What a job still does satisfies `Q`: its script, or what follows the call it has sent. -/
def Ahead (Q : Script K R A → Prop) (job : Job K R A) : Prop :=
  match job with
  | ⟨_, .call _ next, true⟩ => ∀ a, Q (next a)
  | ⟨_, script, _⟩ => Q script

theorem ahead_unsent {Q : Script K R A → Prop} (stack : List K) (script : Script K R A) :
    Ahead Q ⟨stack, script, false⟩ ↔ Q script := by
  cases script with
  | done => exact Iff.rfl
  | fail => exact Iff.rfl
  | join groups next => exact Iff.rfl
  | acquire next => exact Iff.rfl
  | release next => exact Iff.rfl
  | call request next => exact Iff.rfl

/-- What is ahead of a job stays ahead of it when it comes to its next point. -/
theorem Arrives.ahead {Q : Script K R A → Prop} (hQ : Hereditary Q) {s : State K R A} {k : K}
    {stack : List K} {script : Script K R A} (harr : Arrives sys s k stack script) {job : Job K R A}
    (hk : s.cells k = .running job) (h : Ahead Q job) : Q script := by
  cases harr with
  | claimed _ _ hidle => rw [hk] at hidle; cases hidle
  | resumed hrun _ =>
      rw [hk] at hrun
      obtain rfl := Status.running.inj hrun
      exact hQ.join _ _ h
  | acquired hrun =>
      rw [hk] at hrun
      obtain rfl := Status.running.inj hrun
      exact hQ.acquire _ h
  | answered a hrun =>
      rw [hk] at hrun
      obtain rfl := Status.running.inj hrun
      exact h a

section once

variable [DecidableEq K] [DecidableEq R] {k : K} {request : R}

/-- How often a cell has made a call, by where its initialiser is. -/
def OnceInv (sys : System K R A) (k : K) (request : R) (s : State K R A) : Prop :=
  s.issued.count (k, request) ≤ 1 ∧
    ((∀ r, s.cells sys.top ≠ .settled r) → s.cells k = .idle → (k, request) ∉ s.issued) ∧
    ∀ job, s.cells k = .running job →
      ((k, request) ∉ s.issued ∧ Ahead (Once request) job) ∨ Ahead (Avoids request) job

/-- A cell that moved to a waiting point made no call in that step. -/
theorem not_mem_issued {s s' : State K R A} {e : Event K A} (hstep : step sys s e = some s')
    (hsame : ∀ stack next, s.cells k = .running ⟨stack, .call request next, false⟩ →
      s'.cells k ≠ .running ⟨stack, .call request next, true⟩)
    (h : (k, request) ∉ s.issued) : (k, request) ∉ s'.issued := by
  rcases step_issued hstep with heq | ⟨k', request', heq, stack, next, hbefore, hafter⟩
  · rw [heq]
    exact h
  · rw [heq, List.mem_append, List.mem_singleton, not_or]
    refine ⟨h, fun hmem => ?_⟩
    obtain ⟨rfl, rfl⟩ := Prod.mk.inj hmem
    exact hsame stack next hbefore hafter

theorem step_onceInv (honce : Once request (sys.script k)) {s s' : State K R A} {e : Event K A}
    (hinv : Inv sys rank capped none s) (hno : NoError s) (hfail : FailInv sys s')
    (h : OnceInv sys k request s) (hstep : step sys s e = some s') : OnceInv sys k request s' := by
  obtain ⟨hcount, hidle, hrunning⟩ := h
  refine ⟨?_, ?_, ?_⟩
  · rcases step_issued hstep with heq | ⟨k', request', heq, stack, next, hbefore, _⟩
    · rw [heq]
      exact hcount
    · rw [heq, List.count_append]
      by_cases hpair : (k', request') = (k, request)
      · obtain ⟨rfl, rfl⟩ := Prod.mk.inj hpair
        rcases hrunning _ hbefore with ⟨hnot, _⟩ | havoid
        · rw [List.count_eq_zero_of_not_mem hnot]
          simp
        · exact absurd rfl havoid.1
      · simpa [List.count_singleton, hpair] using hcount
  · intro htop hk
    have hopen : ∀ r, s.cells sys.top ≠ .settled r := fun r hr => htop r (step_settled hstep hr)
    have hnil : s'.failures = [] := by
      rcases hfail with ⟨hnil, _⟩ | ⟨f, _, hsettled⟩
      · exact hnil
      · exact absurd hsettled (htop _)
    obtain ⟨_, hsame, hbusy, _⟩ := step_calm hinv hno hstep hnil
    have hactor : k ≠ e.actor := by
      rintro rfl
      exact hbusy hk
    have hk' : s.cells k = .idle := (hsame k hactor).symm.trans hk
    apply not_mem_issued hstep _ (hidle hopen hk')
    intro stack next hbefore
    rw [hk'] at hbefore
    cases hbefore
  · intro job hk
    cases step_change hstep k with
    | same hs =>
        have hbefore : s.cells k = .running job := hs.symm.trans hk
        rcases hrunning job hbefore with ⟨hnot, hahead⟩ | havoid
        · refine .inl ⟨not_mem_issued hstep ?_ hnot, hahead⟩
          intro stack next h1 h2
          rw [hs, h1] at h2
          cases h2
        · exact .inr havoid
    | @sent stack request' next hbefore hafter hissued =>
        rw [hk] at hafter
        obtain rfl := Status.running.inj hafter
        rcases hrunning _ hbefore with ⟨hnot, hahead⟩ | havoid
        · by_cases hreq : request' = request
          · exact .inr (hahead.1 hreq)
          · refine .inl ⟨?_, hahead.2⟩
            rw [hissued, List.mem_append, List.mem_singleton, not_or]
            exact ⟨hnot, fun hmem => hreq (Prod.mk.inj hmem).2.symm⟩
        · exact .inr havoid.2
    | @moved stack script harr hafter =>
        rw [hk] at hafter
        obtain rfl := Status.running.inj hafter
        have hkeep : (k, request) ∉ s.issued → (k, request) ∉ s'.issued := by
          apply not_mem_issued hstep
          intro stack' next _ h2
          rw [hk] at h2
          have hsent : false = true := congrArg Job.sent (Status.running.inj h2)
          cases hsent
        rw [ahead_unsent, ahead_unsent]
        cases hcell : s.cells k with
        | settled r => exact absurd hcell (harr.isOpen r)
        | idle =>
            cases harr with
            | claimed hp _ _ =>
                obtain ⟨topJob, htop, _⟩ := hinv.top_running hp
                refine .inl ⟨hkeep (hidle (fun r hr => ?_) hcell),
                  (Once.hereditary request).rest honce⟩
                rw [htop] at hr
                cases hr
            | resumed hrun _ => rw [hcell] at hrun; cases hrun
            | acquired hrun => rw [hcell] at hrun; cases hrun
            | answered _ hrun => rw [hcell] at hrun; cases hrun
        | running before =>
            rcases hrunning before hcell with ⟨hnot, hahead⟩ | havoid
            · have hscript := harr.ahead (Once.hereditary request) hcell hahead
              exact .inl ⟨hkeep hnot, (Once.hereditary request).rest hscript⟩
            · have hscript := harr.ahead (Avoids.hereditary request) hcell havoid
              exact .inr ((Avoids.hereditary request).rest hscript)
    | ended _ _ hafter => rw [hk] at hafter; cases hafter
    | failed _ hafter => rw [hk] at hafter; cases hafter
    | dropped _ hafter => rw [hk] at hafter; cases hafter

/-- Where every join is fail-fast, a cell makes a call at most once if its script does. -/
theorem issued_once (hwf : WellFormed sys rank capped) (hquick : ∀ k, Quick sys.fast (sys.script k))
    (honce : Once request (sys.script k)) {s : State K R A}
    (h : Reachable (step sys) (initial sys pre) s) : s.issued.count (k, request) ≤ 1 := by
  have hinv : OnceInv sys k request s := by
    have hstart : OnceInv sys k request (initial sys pre) := by
      refine ⟨by simp [initial], by simp [initial], ?_⟩
      intro job hk
      obtain ⟨rfl, rfl⟩ := initial_running hk
      exact .inl ⟨by simp [initial], (ahead_unsent _ _).mpr honce⟩
    apply h.invariant hstart
    · intro s e s' hr hs hstep
      exact step_onceInv honce (reachable_inv hwf hr) (reachable_noError hwf hr)
        (failed_at_once hwf hquick (hr.next hstep)) hs hstep
  exact hinv.1

/-- A cell whose script avoids a call never makes it. -/
theorem issued_avoids (havoid : Avoids request (sys.script k)) {s : State K R A}
    (h : Reachable (step sys) (initial sys pre) s) : (k, request) ∉ s.issued := by
  refine h.invariant (P := fun s => (k, request) ∉ s.issued) (by simp [initial]) ?_
  intro s e s' hr hs hstep
  have hscripts := reachable_scripts (Q := fun c script => c = k → Avoids request script)
    (fun c => ⟨fun _ _ h hc => h hc, fun _ h hc => h hc, fun _ h hc => h hc,
      fun _ _ h a hc => (h hc).2 a⟩) (fun c hc => hc ▸ havoid) hr
  apply not_mem_issued hstep _ hs
  intro stack next hk
  exact absurd rfl (hscripts k _ hk rfl).1

/-- A call that only one cell makes is counted by that cell. -/
theorem count_request {l : List (K × R)} (h : ∀ c, (c, request) ∈ l → c = k) :
    (l.map Prod.snd).count request = l.count (k, request) := by
  induction l with
  | nil => rfl
  | cons head l ih =>
      obtain ⟨c, r⟩ := head
      rw [List.map_cons, List.count_cons, List.count_cons,
        ih fun c hc => h c (List.mem_cons_of_mem _ hc)]
      by_cases hr : r = request
      · subst hr
        obtain rfl := h c List.mem_cons_self
        simp
      · simp [hr]

end once

/-! ### Answers that fail a cell -/

section answers

/-- After every answer of `bad`, the script fails. -/
def FailsOn (bad : R → A → Prop) : Script K R A → Prop
  | .done => True
  | .fail => True
  | .join _ next => FailsOn bad next
  | .acquire next => FailsOn bad next
  | .release next => FailsOn bad next
  | .call request next =>
      (∀ a, bad request a → (next a).rest = .fail) ∧ ∀ a, FailsOn bad (next a)

theorem FailsOn.hereditary (bad : R → A → Prop) : Hereditary (FailsOn (K := K) bad) :=
  ⟨fun _ _ h => h, fun _ h => h, fun _ h => h, fun _ _ h => h.2⟩

variable [DecidableEq K] [DecidableEq R]

/-- A record of failures only grows. -/
theorem step_failures {s s' : State K R A} {e : Event K A} (h : step sys s e = some s') :
    s.failures <+: s'.failures := by
  rcases step_shape h with
      ⟨k, stack, request, next, _, hk, rfl⟩ | ⟨k, f, kjob, groups, next, hk, _, _, rfl⟩ |
      ⟨stack, script, s₀, harr, hcells, _, hfailures, rfl⟩
  · exact List.prefix_rfl
  · have hopen : Open s k := fun r hr => by rw [hk] at hr; cases hr
    rw [(failUp_record sys _ _ hopen).2]
  · obtain ⟨s₁, hsame, ⟨_, heq⟩ | ⟨_, heq⟩ | ⟨_, heq⟩⟩ := advance_cases sys e.actor stack script s₀
    · rw [heq, ← hfailures, ← hsame.failures]
      exact List.prefix_rfl
    · have hopen : Open { s₁ with failures := s₁.failures ++ [e.actor] } e.actor := by
        intro r hr
        dsimp only at hr
        rw [hsame.cells, hcells] at hr
        exact harr.isOpen r hr
      rw [heq, (failUp_record sys _ _ hopen).2, ← hfailures, ← hsame.failures]
      exact List.prefix_append _ _
    · rw [heq, ← hfailures, ← hsame.failures]
      exact List.prefix_rfl

/-- Where every bad answer fails its script, one is always on record as a failure. -/
theorem failures_of_answer {bad : R → A → Prop} (hbad : ∀ k, FailsOn bad (sys.script k))
    {s : State K R A} (h : Reachable (step sys) (initial sys pre) s) {k : K} {request : R} {a : A}
    (hmem : (k, request, a) ∈ s.answers) (ha : bad request a) : s.failures ≠ [] := by
  suffices hinv : ∀ k request a, (k, request, a) ∈ s.answers → bad request a → s.failures ≠ [] from
    hinv k request a hmem ha
  refine h.invariant (P := fun s => ∀ k request a, (k, request, a) ∈ s.answers →
    bad request a → s.failures ≠ []) (by simp [initial]) ?_
  intro s e s' hr hs hstep k request a hmem ha hnil
  have hscripts := reachable_scripts (fun _ => FailsOn.hereditary bad) hbad hr
  have hnil' : s.failures = [] := List.prefix_nil.mp (hnil ▸ step_failures hstep)
  have hold : (k, request, a) ∉ s.answers := fun hmem => hs k request a hmem ha hnil'
  cases step_cases hstep with
  | @claim p c _ _ _ _ _ _ hk =>
      have hopen : Open s c := fun r hr => by rw [hk] at hr; cases hr
      rw [(advance_record hopen).answers] at hmem
      exact hold hmem
  | @resume p _ _ _ _ hp _ =>
      have hopen : Open s p := fun r hr => by rw [hp] at hr; cases hr
      rw [(advance_record hopen).answers] at hmem
      exact hold hmem
  | @observe p _ _ _ _ _ hp _ =>
      have hopen : Open s p := fun r hr => by rw [hp] at hr; cases hr
      rw [(failUp_record sys _ _ hopen).1.answers] at hmem
      exact hold hmem
  | @acquire p _ _ _ hp _ =>
      have hopen : Open { s with holders := p :: s.holders } p := fun r hr => by
        dsimp only at hr
        rw [hp] at hr
        cases hr
      rw [(advance_record hopen).answers] at hmem
      exact hold hmem
  | send _ => exact hold hmem
  | @answer p stack request' next a' hp =>
      have hopen : Open { s with
          unanswered := s.unanswered.erase (p, request')
          answers := s.answers ++ [(p, request', a')] } p := fun r hr => by
        dsimp only at hr
        rw [hp] at hr
        cases hr
      rw [(advance_record hopen).answers] at hmem
      rcases List.mem_append.mp hmem with hmem | hmem
      · exact hold hmem
      · obtain ⟨rfl, hpair⟩ := Prod.mk.inj (List.mem_singleton.mp hmem)
        obtain ⟨rfl, rfl⟩ := Prod.mk.inj hpair
        have hfail := (hscripts k _ hp).1 a ha
        obtain ⟨s₁, hsame, ⟨hrest, _⟩ | ⟨_, heq⟩ | ⟨hwaits, _⟩⟩ :=
          advance_cases sys k stack (next a)
          { s with
            unanswered := s.unanswered.erase (k, request)
            answers := s.answers ++ [(k, request, a)] }
        · rw [hfail] at hrest
          cases hrest
        · have hopen' : Open { s₁ with failures := s₁.failures ++ [k] } k := by
            intro r hr
            dsimp only at hr
            rw [hsame.cells] at hr
            exact hopen r hr
          rw [heq, (failUp_record sys _ _ hopen').2] at hnil
          simp at hnil
        · rw [hfail] at hwaits
          cases hwaits

end answers

/-! ### Success: nothing has failed -/

section success

/-- A caller of higher rank has failed, or still waits for `c`. -/
def Held (rank : Ranking K) (s : State K R A) (c : K) : Prop :=
  ∃ d, rank c < rank d ∧ ((∃ g, s.cells d = .settled (.error g)) ∨
    ∃ stack groups next sent, s.cells d = .running ⟨stack, .join groups next, sent⟩ ∧
      c ∈ groups.flatten)

/-- A cell that failed is the top one, or keeps one of its callers from succeeding. -/
def Blamed (sys : System K R A) (rank : Ranking K) (s : State K R A) : Prop :=
  ∀ c f, s.cells c = .settled (.error f) →
    c = sys.top ∨ rank c < rank sys.top ∧ Held rank s c

theorem Nested.rank_le {s : State K R A} (h : Nested sys rank s) {k : K} {job : Job K R A}
    (hk : s.cells k = .running job) : rank k ≤ rank sys.top := by
  generalize hstack : job.stack = stack
  induction stack generalizing k job with
  | nil =>
      have hplaced := h.placed k job hk
      rw [hstack] at hplaced
      rw [show k = sys.top from hplaced]
  | cons p stack ih =>
      have hplaced := h.placed k job hk
      have habove := h.above k job hk p (by rw [hstack]; exact List.mem_cons_self)
      rw [hstack] at hplaced
      obtain ⟨groups, next, sent, hp, _⟩ := hplaced
      exact habove.le.trans (ih hp rfl)

/-- A change of one cell that waited for no failed one. -/
theorem Blamed.keep {s s' : State K R A} (h : Blamed sys rank s) (k : K)
    (hsame : ∀ c, c ≠ k → s'.cells c = s.cells c) (hno : ∀ f, s'.cells k ≠ .settled (.error f))
    (hk : Open s k) (hjoin : ∀ stack groups next sent,
      s.cells k = .running ⟨stack, .join groups next, sent⟩ →
      ∀ c ∈ groups.flatten, ∀ f, s.cells c ≠ .settled (.error f)) : Blamed sys rank s' := by
  intro c f hc
  have hck : c ≠ k := by
    rintro rfl
    exact hno f hc
  have hc' := (hsame c hck).symm.trans hc
  rcases h c f hc' with htop | ⟨hlt, d, hd, hcase⟩
  · exact .inl htop
  refine .inr ⟨hlt, d, hd, ?_⟩
  rcases hcase with ⟨g, hg⟩ | ⟨stack, groups, next, sent, hrun, hmem⟩
  · have hdk : d ≠ k := by
      rintro rfl
      exact hk _ hg
    exact .inl ⟨g, (hsame d hdk).trans hg⟩
  · have hdk : d ≠ k := by
      rintro rfl
      exact hjoin _ _ _ _ hrun c hmem f hc'
    exact .inr ⟨stack, groups, next, sent, (hsame d hdk).trans hrun, hmem⟩

/-- A cell that goes on waited for no failed one. -/
theorem Arrives.join_ok {s : State K R A} {k : K} {stack : List K} {script : Script K R A}
    (harr : Arrives sys s k stack script) {stack' : List K} {groups : List (List K)}
    {next : Script K R A} {sent : Bool}
    (hk : s.cells k = .running ⟨stack', .join groups next, sent⟩) {c : K} (hc : c ∈ groups.flatten)
    (f : K) : s.cells c ≠ .settled (.error f) := by
  intro hf
  cases harr with
  | claimed _ _ hidle => rw [hk] at hidle; cases hidle
  | resumed hrun hall =>
      rw [hk] at hrun
      obtain ⟨_, hscript, _⟩ := Job.mk.inj (Status.running.inj hrun)
      obtain ⟨rfl, _⟩ := Script.join.inj hscript
      rw [hall c hc] at hf
      cases hf
  | acquired hrun => rw [hk] at hrun; cases hrun
  | answered _ hrun => rw [hk] at hrun; cases hrun

variable [DecidableEq K]

/-- The failure of one cell: what it drops is held by the cell itself, and it by its caller. -/
theorem settle_blamed {s : State K R A} (hinv : Nested sys rank s) {k f : K} {stack : List K}
    (h : Blamed sys rank s) (hplaced : Placed sys s k stack)
    (habove : ∀ p ∈ stack, rank k < rank p) : Blamed sys rank (s.settle k (.error f)) := by
  have hself : (s.settle k (.error f)).cells k = .settled (.error f) := s.settle_cells_self k _
  intro c g hc
  by_cases hck : c = k
  · subst hck
    cases stack with
    | nil => exact .inl hplaced
    | cons p stack =>
        obtain ⟨groups, next, sent, hp, hmem⟩ := hplaced
        have hlt := habove p List.mem_cons_self
        have hpc : p ≠ c := by
          rintro rfl
          exact absurd hlt (lt_irrefl _)
        have hstack : c ∉ stack :=
          fun hc => absurd (habove c (List.mem_cons_of_mem _ hc)) (lt_irrefl _)
        refine .inr ⟨lt_of_lt_of_le hlt (hinv.rank_le hp), p, hlt,
          .inr ⟨stack, groups, next, sent, ?_, hmem⟩⟩
        exact s.settle_running.mpr ⟨hpc, hstack, hp⟩
  · have hc' : s.cells c = .settled (.error g) := by
      rw [s.settle_cells, if_neg hck] at hc
      split_ifs at hc with hruns
      exact hc
    rcases h c g hc' with htop | ⟨hlt, d, hd, hcase⟩
    · exact .inl htop
    refine .inr ⟨hlt, ?_⟩
    by_cases hdk : d = k
    · exact ⟨k, hdk ▸ hd, .inl ⟨f, hself⟩⟩
    rcases hcase with ⟨g', hg'⟩ | ⟨dstack, groups, next, sent, hrun, hmem⟩
    · exact ⟨d, hd, .inl ⟨g', s.settle_settled hdk hg'⟩⟩
    · by_cases hin : k ∈ dstack
      · exact ⟨k, hd.trans (hinv.above d _ hrun k hin), .inl ⟨f, hself⟩⟩
      · exact ⟨d, hd, .inr ⟨dstack, groups, next, sent,
          s.settle_running.mpr ⟨hdk, hin, hrun⟩, hmem⟩⟩

theorem failUp_blamed {stack : List K} {k f : K} {s : State K R A} (hinv : Nested sys rank s)
    (h : Blamed sys rank s) (hplaced : Placed sys s k stack)
    (habove : ∀ p ∈ stack, rank k < rank p) : Blamed sys rank (failUp sys stack k f s) := by
  induction stack generalizing k f s with
  | nil => exact settle_blamed hinv h hplaced habove
  | cons p stack ih =>
      have hs := settle_blamed (f := f) hinv h hplaced habove
      have hinv' := hinv.settle k (.error f)
      unfold failUp
      dsimp only
      split
      · next hp =>
          obtain ⟨_, _, _, hp', _⟩ := hplaced
          obtain ⟨_, _, hp''⟩ := s.settle_running.mp hp
          rw [hp''] at hp'
          obtain ⟨rfl, _⟩ := Job.mk.inj (Status.running.inj hp')
          split
          · exact ih hinv' hs (hinv'.placed p _ hp) (hinv'.above p _ hp)
          · exact hs
      · exact hs

/-- A cell that failed by itself holds its failure. -/
theorem failUp_cells_self (stack : List K) {k f : K} {s : State K R A} :
    (failUp sys stack k f s).cells k = .settled (.error f) := by
  have hself := s.settle_cells_self k (.error f)
  cases stack with
  | nil => exact hself
  | cons p stack =>
      unfold failUp
      dsimp only
      split
      · next hp =>
          split
          · refine failUp_keeps (P := fun s' => s'.cells k = .settled (.error f)) ?_ ?_ hself
            · intro s' j g hj hk
              refine s'.settle_settled ?_ hk
              rintro rfl
              exact hj _ hk
            · intro r hr
              rw [hp] at hr
              cases hr
          · exact hself
      · exact hself

variable [DecidableEq R]

theorem step_blamed {s s' : State K R A} {e : Event K A} (hinv : Inv sys rank capped none s)
    (h : Blamed sys rank s) (hstep : step sys s e = some s') : Blamed sys rank s' := by
  rcases step_shape hstep with
      ⟨k, stack, request, next, _, hk, rfl⟩ | ⟨k, f, kjob, groups, next, hk, _, _, rfl⟩ |
      ⟨stack, script, s₀, harr, hcells, _, _, rfl⟩
  · refine h.keep k (fun c hc => ?_) (by simp) ?_ ?_
    · dsimp only
      rw [s.put_cells, if_neg hc]
    · intro r hr
      rw [hk] at hr
      cases hr
    · intro stack' groups next' sent hrun
      rw [hk] at hrun
      cases hrun
  · exact failUp_blamed hinv.nested h (hinv.placed k _ hk) (hinv.above k _ hk)
  · generalize e.actor = k at harr ⊢
    obtain ⟨s₁, hsame, hcase⟩ := advance_cases sys k stack script s₀
    have hcells₁ : s₁.cells = s.cells := hsame.cells.trans hcells
    have hjoin : ∀ stack groups next sent, s.cells k = .running ⟨stack, .join groups next, sent⟩ →
        ∀ c ∈ groups.flatten, ∀ f, s.cells c ≠ .settled (.error f) :=
      fun _ _ _ _ hrun c hc f => harr.join_ok hrun hc f
    rcases hcase with ⟨_, heq⟩ | ⟨_, heq⟩ | ⟨_, heq⟩
    · rw [heq]
      refine h.keep k (fun c hc => ?_) ?_ harr.isOpen hjoin
      · have hruns : s₁.runsFor k c = false := by
          unfold State.runsFor
          rw [hcells₁]
          cases hcell : s.cells c with
          | idle => rfl
          | settled r => rfl
          | running job => simpa using harr.noChild hinv c job hcell
        rw [s₁.settle_cells, if_neg hc, if_neg (by simp [hruns]), hcells₁]
      · intro f hf
        rw [s₁.settle_cells_self] at hf
        cases hf
    · rw [heq]
      obtain ⟨hplaced, habove⟩ := harr.placed hinv
      refine failUp_blamed (hinv.nested.congr hcells₁) ?_ (hplaced.congr hcells₁) habove
      intro c f hc
      unfold Held
      dsimp only at hc ⊢
      rw [hcells₁] at hc ⊢
      exact h c f hc
    · rw [heq]
      refine h.keep k (fun c hc => ?_) (by simp) harr.isOpen hjoin
      rw [s₁.put_cells, if_neg hc, hcells₁]

theorem reachable_blamed (hwf : WellFormed sys rank capped) {s : State K R A}
    (h : Reachable (step sys) (initial sys pre) s) : Blamed sys rank s := by
  refine h.invariant ?_ fun _ _ _ hr hs hstep => step_blamed (reachable_inv hwf hr) hs hstep
  intro c f hc
  unfold initial at hc
  dsimp only at hc
  split_ifs at hc
  cases hc

/-- Where the top cell succeeded, no cell has failed: its callers, of ever higher rank, would
have. -/
theorem noError_of_ok (hwf : WellFormed sys rank capped) {s : State K R A}
    (h : Reachable (step sys) (initial sys pre) s) (htop : s.cells sys.top = .settled (.ok ()))
    (c f : K) : s.cells c ≠ .settled (.error f) := by
  have hinv := reachable_inv hwf h
  intro hc
  induction hn : rank sys.top - rank c using Nat.strong_induction_on generalizing c f with
  | _ n ih =>
      rcases reachable_blamed hwf h c f hc with rfl | ⟨hlt, d, hd, ⟨g, hg⟩ | ⟨_, _, _, _, hrun, _⟩⟩
      · rw [htop] at hc
        cases hc
      · exact ih (rank sys.top - rank d) (by omega) d g hg rfl
      · exact hinv.not_running_of_settled htop d _ hrun

theorem reachable_failures {s : State K R A} (h : Reachable (step sys) (initial sys pre) s) :
    ∀ k ∈ s.failures, ∃ f, s.cells k = .settled (.error f) := by
  refine h.invariant (P := fun s => ∀ k ∈ s.failures, ∃ f, s.cells k = .settled (.error f))
    (by simp [initial]) ?_
  intro s e s' hr hs hstep c hc
  by_cases hold : c ∈ s.failures
  · obtain ⟨f, hf⟩ := hs c hold
    exact ⟨f, step_settled hstep hf⟩
  rcases step_shape hstep with
      ⟨k, stack, request, next, _, hk, rfl⟩ | ⟨k, f, kjob, groups, next, hk, _, _, rfl⟩ |
      ⟨stack, script, s₀, harr, hcells, _, hfailures, rfl⟩
  · exact absurd hc hold
  · have hopen : Open s k := fun r hr => by rw [hk] at hr; cases hr
    rw [(failUp_record sys _ _ hopen).2] at hc
    exact absurd hc hold
  · obtain ⟨s₁, hsame, ⟨_, heq⟩ | ⟨_, heq⟩ | ⟨_, heq⟩⟩ := advance_cases sys e.actor stack script s₀
    · rw [heq] at hc
      have hc' : c ∈ s₁.failures := hc
      rw [hsame.failures, hfailures] at hc'
      exact absurd hc' hold
    · have hopen : Open { s₁ with failures := s₁.failures ++ [e.actor] } e.actor := by
        intro r hr
        dsimp only at hr
        rw [hsame.cells, hcells] at hr
        exact harr.isOpen r hr
      rw [heq, (failUp_record sys _ _ hopen).2, hsame.failures, hfailures] at hc
      rcases List.mem_append.mp hc with hc | hc
      · exact absurd hc hold
      · rw [List.mem_singleton.mp hc, heq]
        exact ⟨e.actor, failUp_cells_self stack⟩
    · rw [heq] at hc
      have hc' : c ∈ s₁.failures := hc
      rw [hsame.failures, hfailures] at hc'
      exact absurd hc' hold

/-- Where the top cell succeeded, nothing is on record as a failure, and nothing is unanswered. -/
theorem failures_of_ok (hwf : WellFormed sys rank capped) {s : State K R A}
    (h : Reachable (step sys) (initial sys pre) s) (htop : s.cells sys.top = .settled (.ok ())) :
    s.failures = [] ∧ s.unanswered = [] := by
  have hfailures : s.failures = [] := by
    rw [List.eq_nil_iff_forall_not_mem]
    intro k hk
    obtain ⟨f, hf⟩ := reachable_failures h k hk
    exact noError_of_ok hwf h htop k f hf
  refine ⟨hfailures, ?_⟩
  rw [List.eq_nil_iff_forall_not_mem]
  rintro ⟨k, request⟩ hmem
  obtain ⟨stack, next, hrun⟩ := (reachable_awaitInv hwf h hfailures).2 k request hmem
  exact (reachable_inv hwf h).not_running_of_settled htop k _ hrun

end success

end Fanout
