import Ratect.Fanout

/-! # The structure every reachable state keeps

`Inv` says how the running initialisers hang together: each runs inside of a caller that waits in
a join for it (`Placed`), down to the top cell; each is at a point where it waits, with a rest of
its script that takes permits one at a time and awaits nothing while it holds one (`Scoped`), and
that awaits only cells of lower rank (`Ranked`); and the permits are held by running initialisers.

`step_cases` lists what a step can do; `advance_inv` and `failUp_inv` are the two pieces every
step is made of, and `step_inv` and `reachable_inv` follow. -/

namespace Fanout

open Transition (Reachable)

variable {K R A : Type}

/-! ### Properties of scripts -/

/-- Permits are taken one at a time, nothing is awaited while one is held, and every request of
`capped` is made under one. -/
def Scoped (capped : R → Prop) : Bool → Script K R A → Prop
  | _, .done => True
  | _, .fail => True
  | held, .join _ next => held = false ∧ Scoped capped false next
  | held, .acquire next => held = false ∧ Scoped capped true next
  | held, .release next => held = true ∧ Scoped capped false next
  | held, .call request next => (capped request → held = true) ∧ ∀ a, Scoped capped held (next a)

/-- A rank for every cell, and the cells that a run can come to. -/
structure Ranking (K : Type) where
  known : K → Prop
  rank : K → ℕ

instance : CoeFun (Ranking K) fun _ => K → ℕ := ⟨Ranking.rank⟩

/-- Every cell awaited is a known one, of a rank below `n`. -/
def Ranked (rank : Ranking K) (n : ℕ) : Script K R A → Prop
  | .done => True
  | .fail => True
  | .join groups next => (∀ k ∈ groups.flatten, rank.known k ∧ rank k < n) ∧ Ranked rank n next
  | .acquire next => Ranked rank n next
  | .release next => Ranked rank n next
  | .call _ next => ∀ a, Ranked rank n (next a)

/-- The script is at a point where it waits. -/
def Waits : Script K R A → Prop
  | .join _ _ => True
  | .acquire _ => True
  | .call _ _ => True
  | _ => False

/-! ### The effect of the pieces of a step on the cells -/

namespace State

variable [DecidableEq K] (s : State K R A)

@[simp] theorem put_cells (k c : K) (status : Status K R A) :
    (s.put k status).cells c = if c = k then status else s.cells c := by
  simp only [put, Function.update_apply]

@[simp] theorem put_holders (k : K) (status : Status K R A) :
    (s.put k status).holders = s.holders := rfl

@[simp] theorem returnPermit_cells (k : K) : (s.returnPermit k).cells = s.cells := rfl

theorem mem_returnPermit_holders (k c : K) :
    c ∈ (s.returnPermit k).holders ↔ c ∈ s.holders ∧ c ≠ k := by
  simp [returnPermit]

theorem settle_cells (k c : K) (result : Except K Unit) :
    (s.settle k result).cells c =
      if c = k then .settled result else if s.runsFor k c then .idle else s.cells c := by
  simp only [settle, put_cells, returnPermit_cells, drop]

theorem settle_cells_self (k : K) (result : Except K Unit) :
    (s.settle k result).cells k = .settled result := by
  rw [settle_cells, if_pos rfl]

theorem mem_settle_holders (k c : K) (result : Except K Unit) :
    c ∈ (s.settle k result).holders ↔ c ∈ s.holders ∧ s.runsFor k c = false ∧ c ≠ k := by
  simp [settle, put_holders, mem_returnPermit_holders, drop, and_assoc]

theorem runsFor_running {k c : K} {job : Job K R A} (h : s.cells c = .running job) :
    s.runsFor k c = true ↔ k ∈ job.stack := by
  simp [runsFor, h]

/-- A cell still running after a settlement was running before, outside of the settled cell. -/
theorem settle_running {k c : K} {result : Except K Unit} {job : Job K R A} :
    (s.settle k result).cells c = .running job ↔
      c ≠ k ∧ k ∉ job.stack ∧ s.cells c = .running job := by
  rw [settle_cells]
  constructor
  · intro h
    split_ifs at h with hk hr
    refine ⟨hk, ?_, h⟩
    rw [← s.runsFor_running h]
    exact hr
  · rintro ⟨hk, hstack, h⟩
    have hr : s.runsFor k c = false := by
      rw [← Bool.not_eq_true, s.runsFor_running h]
      exact hstack
    simp [hk, hr, h]

/-- A settled cell stays as it is, unless it is the one that is settled. -/
theorem settle_settled {k c : K} {result r : Except K Unit} (hk : c ≠ k)
    (h : s.cells c = .settled r) : (s.settle k result).cells c = .settled r := by
  rw [settle_cells, if_neg hk, if_neg _, h]
  simp [runsFor, h]

end State

/-! ### What a step can do -/

section step

theorem isOk_iff (s : State K R A) (k : K) : s.isOk k = true ↔ s.cells k = .settled (.ok ()) := by
  unfold State.isOk
  split
  · simp_all
  · simp_all

theorem isIdle_iff (s : State K R A) (k : K) : s.isIdle k = true ↔ s.cells k = .idle := by
  unfold State.isIdle
  split
  · simp_all
  · simp_all

variable [DecidableEq K] [DecidableEq R]

/-- The steps, one form each, with their guards. -/
inductive Step (sys : System K R A) (s : State K R A) : Event K A → State K R A → Prop
  | claim {p k : K} {stack : List K} {groups : List (List K)} {next : Script K R A} {sent : Bool} :
      s.cells p = .running ⟨stack, .join groups next, sent⟩ → k ∈ groups.flatten →
      s.cells k = .idle → Step sys s (.claim p k) (advance sys k (p :: stack) (sys.script k) s)
  | resume {p : K} {stack : List K} {groups : List (List K)} {next : Script K R A} {sent : Bool} :
      s.cells p = .running ⟨stack, .join groups next, sent⟩ →
      (∀ k ∈ groups.flatten, s.cells k = .settled (.ok ())) →
      Step sys s (.resume p) (advance sys p stack next s)
  | observe {p f : K} {stack : List K} {groups : List (List K)}
      {next : Script K R A} {sent : Bool} :
      s.cells p = .running ⟨stack, .join groups next, sent⟩ → joinFailure sys s groups = some f →
      Step sys s (.observe p) (failUp sys stack p f s)
  | acquire {p : K} {stack : List K} {next : Script K R A} {sent : Bool} :
      s.cells p = .running ⟨stack, .acquire next, sent⟩ → permitFree sys s = true →
      Step sys s (.acquire p) (advance sys p stack next { s with holders := p :: s.holders })
  | send {p : K} {stack : List K} {request : R} {next : A → Script K R A} :
      s.cells p = .running ⟨stack, .call request next, false⟩ →
      Step sys s (.send p) { (s.put p (.running ⟨stack, .call request next, true⟩)) with
        issued := s.issued ++ [(p, request)]
        unanswered := s.unanswered ++ [(p, request)] }
  | answer {p : K} {stack : List K} {request : R} {next : A → Script K R A} {a : A} :
      s.cells p = .running ⟨stack, .call request next, true⟩ →
      Step sys s (.answer p a) (advance sys p stack (next a) { s with
        unanswered := s.unanswered.erase (p, request)
        answers := s.answers ++ [(p, request, a)] })

theorem step_cases {sys : System K R A} {s s' : State K R A} {e : Event K A}
    (h : step sys s e = some s') : Step sys s e s' := by
  unfold step at h
  split at h
  · split at h
    · next hp =>
        split_ifs at h with hc
        obtain rfl := Option.some.inj h
        exact .claim hp hc.1 ((isIdle_iff s _).mp hc.2)
    · cases h
  · split at h
    · next hp =>
        split_ifs at h with hc
        obtain rfl := Option.some.inj h
        exact .resume hp fun k hk => (isOk_iff s k).mp (hc k hk)
    · cases h
  · split at h
    · next hp =>
        obtain ⟨f, hf, rfl⟩ := Option.map_eq_some_iff.mp h
        exact .observe hp hf
    · cases h
  · split at h
    · next hp =>
        split_ifs at h with hc
        obtain rfl := Option.some.inj h
        exact .acquire hp hc
    · cases h
  · split at h
    · next hp =>
        obtain rfl := Option.some.inj h
        exact .send hp
    · cases h
  · split at h
    · next hp =>
        obtain rfl := Option.some.inj h
        exact .answer hp
    · cases h

theorem step_of_cases {sys : System K R A} {s s' : State K R A} {e : Event K A}
    (h : Step sys s e s') : step sys s e = some s' := by
  cases h with
  | claim hp hmem hk =>
      simp only [step, hp]
      rw [if_pos ⟨hmem, (isIdle_iff s _).mpr hk⟩]
  | resume hp hall =>
      simp only [step, hp]
      rw [if_pos fun k hk => (isOk_iff s k).mpr (hall k hk)]
  | observe hp hf => simp only [step, hp, hf, Option.map_some]
  | acquire hp hfree =>
      simp only [step, hp]
      rw [if_pos hfree]
  | send hp => simp only [step, hp]
  | answer hp => simp only [step, hp]

end step

/-! ### The invariant -/

section invariant

variable [DecidableEq K] (sys : System K R A) (rank : Ranking K) (capped : R → Prop)

/-- The initialiser of `k` runs at the bottom, or its caller waits for it in a join. -/
def Placed (s : State K R A) (k : K) : List K → Prop
  | [] => k = sys.top
  | p :: stack => ∃ groups next sent,
      s.cells p = .running ⟨stack, .join groups next, sent⟩ ∧ k ∈ groups.flatten

/-- What holds of one running initialiser. -/
structure JobOk (s : State K R A) (k : K) (job : Job K R A) : Prop where
  permits : Scoped capped (decide (k ∈ s.holders)) job.script
  ranked : Ranked rank (rank k) job.script
  waits : Waits job.script

/-- The invariant, with the initialiser of `except` left out of `job`: it is on its way from one
point to the next. -/
structure Inv (except : Option K) (s : State K R A) : Prop where
  placed : ∀ k job, s.cells k = .running job → Placed sys s k job.stack
  above : ∀ k job, s.cells k = .running job → ∀ p ∈ job.stack, rank k < rank p
  job : ∀ k job, s.cells k = .running job → some k ≠ except → JobOk rank capped s k job
  holders : ∀ k ∈ s.holders, some k ≠ except → ∃ job, s.cells k = .running job
  nodup : s.holders.Nodup
  cap : ∀ n, sys.cap = some n → s.holders.length ≤ n
  top : some sys.top ≠ except → s.cells sys.top ≠ .idle

variable {sys rank capped}

theorem Inv.weaken {s : State K R A} (h : Inv sys rank capped none s) (k : K) :
    Inv sys rank capped (some k) s :=
  { h with
    job := fun c job hc _ => h.job c job hc (by simp)
    holders := fun c hc _ => h.holders c hc (by simp)
    top := fun _ => h.top (by simp) }

/-- Only the cells and the permits matter. -/
theorem Inv.congr {except : Option K} {s s' : State K R A} (h : Inv sys rank capped except s)
    (hcells : s'.cells = s.cells) (hholders : s'.holders = s.holders) :
    Inv sys rank capped except s' := by
  obtain ⟨cells, holders, _, _, _, _⟩ := s
  obtain ⟨cells', holders', _, _, _, _⟩ := s'
  obtain rfl : cells' = cells := hcells
  obtain rfl : holders' = holders := hholders
  exact ⟨h.placed, h.above, fun k job hk he => ⟨(h.job k job hk he).permits,
    (h.job k job hk he).ranked, (h.job k job hk he).waits⟩, h.holders, h.nodup, h.cap, h.top⟩

/-- Every initialiser runs inside of the top one, which itself runs inside of none. -/
theorem Inv.top_running {except : Option K} {s : State K R A} (h : Inv sys rank capped except s)
    {k : K} {job : Job K R A} (hk : s.cells k = .running job) :
    ∃ topJob, s.cells sys.top = .running topJob ∧ topJob.stack = [] := by
  generalize hstack : job.stack = stack
  induction stack generalizing k job with
  | nil =>
      have hplaced := h.placed k job hk
      rw [hstack] at hplaced
      obtain rfl : k = sys.top := hplaced
      exact ⟨job, hk, hstack⟩
  | cons p stack ih =>
      have hplaced := h.placed k job hk
      rw [hstack] at hplaced
      obtain ⟨groups, next, sent, hp, _⟩ := hplaced
      exact ih hp rfl

/-- Every cell of a stack is running, with the rest of the stack, in a join for one that also
runs inside of it. -/
theorem Inv.stack_running {except : Option K} {s : State K R A} (h : Inv sys rank capped except s)
    {k p : K} {job : Job K R A} (hk : s.cells k = .running job) (hp : p ∈ job.stack) :
    ∃ stack groups next sent c cjob, s.cells p = .running ⟨stack, .join groups next, sent⟩ ∧
      c ∈ groups.flatten ∧ s.cells c = .running cjob := by
  generalize hstack : job.stack = stack
  induction stack generalizing k job with
  | nil =>
      rw [hstack] at hp
      cases hp
  | cons q stack ih =>
      have hplaced := h.placed k job hk
      rw [hstack] at hplaced hp
      obtain ⟨groups, next, sent, hq, hmem⟩ := hplaced
      rcases List.mem_cons.mp hp with rfl | hp
      · exact ⟨stack, groups, next, sent, k, job, hq, hmem, hk⟩
      · exact ih hq hp rfl

/-- Nothing runs inside of `k`. -/
def NoChild (s : State K R A) (k : K) : Prop :=
  ∀ c job, s.cells c = .running job → k ∉ job.stack

theorem Inv.noChild_of_idle {s : State K R A} (h : Inv sys rank capped none s) {k : K}
    (hk : s.cells k = .idle) : NoChild s k := by
  intro c job hc hmem
  obtain ⟨_, _, _, _, _, _, hp, _⟩ := h.stack_running hc hmem
  rw [hk] at hp
  cases hp

/-- A cell has no children outside of a join, nor in one whose entries are all settled. -/
theorem Inv.noChild_of_running {s : State K R A} (h : Inv sys rank capped none s) {k : K}
    {job : Job K R A} (hk : s.cells k = .running job)
    (hjoin : ∀ groups next, job.script = .join groups next →
      ∀ c ∈ groups.flatten, ∃ r, s.cells c = .settled r) : NoChild s k := by
  intro c cjob hc hmem
  obtain ⟨stack, groups, next, sent, d, djob, hp, hd, hrun⟩ := h.stack_running hc hmem
  rw [hk] at hp
  obtain rfl := Status.running.inj hp
  obtain ⟨r, hr⟩ := hjoin groups next rfl d hd
  rw [hr] at hrun
  cases hrun

/-! ### The pieces keep the invariant -/

/-- What still runs after an initialiser has ended is placed as it was. -/
theorem settle_placed {s : State K R A} {k : K} {result : Except K Unit}
    (h : ∀ c job, s.cells c = .running job → Placed sys s c job.stack) (c : K) (job : Job K R A)
    (hc : (s.settle k result).cells c = .running job) :
    Placed sys (s.settle k result) c job.stack := by
  obtain ⟨hck, hstack, hc⟩ := s.settle_running.mp hc
  have hplaced := h c job hc
  cases hj : job.stack with
  | nil =>
      rw [hj] at hplaced
      exact hplaced
  | cons p stack =>
      rw [hj] at hplaced hstack
      obtain ⟨groups, next, sent, hp, hmem⟩ := hplaced
      simp only [List.mem_cons, not_or] at hstack
      exact ⟨groups, next, sent, s.settle_running.mpr ⟨Ne.symm hstack.1, hstack.2, hp⟩, hmem⟩

/-- The end of an initialiser, whatever it was doing. -/
theorem settle_inv {s : State K R A} {k : K} (h : Inv sys rank capped (some k) s)
    (result : Except K Unit) : Inv sys rank capped none (s.settle k result) where
  placed := settle_placed h.placed
  above := by
    intro c job hc
    exact h.above c job (s.settle_running.mp hc).2.2
  job := by
    intro c job hc _
    obtain ⟨hck, hstack, hc⟩ := s.settle_running.mp hc
    obtain ⟨hpermits, hranked, hwaits⟩ := h.job c job hc (by simpa using hck)
    refine ⟨?_, hranked, hwaits⟩
    have hruns : s.runsFor k c = false := by
      rw [← Bool.not_eq_true, s.runsFor_running hc]
      exact hstack
    have hiff : (c ∈ (s.settle k result).holders) = (c ∈ s.holders) := by
      rw [s.mem_settle_holders]
      simp [hruns, hck]
    simpa only [hiff] using hpermits
  holders := by
    intro c hc _
    obtain ⟨hmem, hruns, hck⟩ := (s.mem_settle_holders k c result).mp hc
    obtain ⟨job, hjob⟩ := h.holders c hmem (by simpa using hck)
    refine ⟨job, s.settle_running.mpr ⟨hck, ?_, hjob⟩⟩
    rw [← s.runsFor_running hjob, hruns]
    simp
  nodup := (h.nodup.filter _).filter _
  cap := by
    intro n hn
    have h1 : (s.settle k result).holders.length ≤ s.holders.length :=
      (List.length_filter_le _ _).trans (List.length_filter_le _ _)
    exact h1.trans (h.cap n hn)
  top := by
    intro _
    rw [s.settle_cells]
    split_ifs with hk hr
    · simp
    · -- the top cell runs inside of none, so it is never dropped
      exfalso
      cases htop : s.cells sys.top with
      | idle => exact h.top (by simpa using hk) htop
      | settled r => simp [State.runsFor, htop] at hr
      | running job =>
          obtain ⟨topJob, hj, hnil⟩ := h.top_running htop
          rw [htop] at hj
          obtain rfl := Status.running.inj hj
          rw [s.runsFor_running htop, hnil] at hr
          cases hr
    · exact h.top (by simpa using hk)

/-- An initialiser comes to its next point. -/
theorem put_inv {s : State K R A} {k : K} {stack : List K} {script : Script K R A} {sent : Bool}
    (h : Inv sys rank capped (some k) s) (hchild : NoChild s k) (hplaced : Placed sys s k stack)
    (habove : ∀ p ∈ stack, rank k < rank p)
    (hpermits : Scoped capped (decide (k ∈ s.holders)) script)
    (hranked : Ranked rank (rank k) script) (hwaits : Waits script) :
    Inv sys rank capped none (s.put k (.running ⟨stack, script, sent⟩)) where
  placed := by
    have hkeep : ∀ c cstack, (∀ p ∈ cstack, p ≠ k) → Placed sys s c cstack →
        Placed sys (s.put k (.running ⟨stack, script, sent⟩)) c cstack := by
      intro c cstack hne hc
      cases cstack with
      | nil => exact hc
      | cons p rest =>
          obtain ⟨groups, next, psent, hp, hmem⟩ := hc
          refine ⟨groups, next, psent, ?_, hmem⟩
          rw [s.put_cells, if_neg (hne p List.mem_cons_self), hp]
    intro c job hc
    rw [s.put_cells] at hc
    split_ifs at hc with hck
    · obtain rfl := Status.running.inj hc
      rw [hck]
      apply hkeep k stack _ hplaced
      rintro p hp rfl
      exact absurd (habove p hp) (lt_irrefl _)
    · apply hkeep c job.stack _ (h.placed c job hc)
      rintro p hp rfl
      exact hchild c job hc hp
  above := by
    intro c job hc
    rw [s.put_cells] at hc
    split_ifs at hc with hck
    · obtain rfl := Status.running.inj hc
      rw [hck]
      exact habove
    · exact h.above c job hc
  job := by
    intro c job hc _
    rw [s.put_cells] at hc
    split_ifs at hc with hck
    · obtain rfl := Status.running.inj hc
      rw [hck]
      exact ⟨hpermits, hranked, hwaits⟩
    · obtain ⟨h1, h2, h3⟩ := h.job c job hc (by simpa using hck)
      exact ⟨h1, h2, h3⟩
  holders := by
    intro c hc _
    rw [s.put_cells]
    split_ifs with hck
    · exact ⟨_, rfl⟩
    · exact h.holders c hc (by simpa using hck)
  nodup := h.nodup
  cap := h.cap
  top := by
    intro _
    rw [s.put_cells]
    split_ifs with hk
    · simp
    · exact h.top (by simpa using hk)

theorem returnPermit_inv {s : State K R A} {k : K} (h : Inv sys rank capped (some k) s) :
    Inv sys rank capped (some k) (s.returnPermit k) where
  placed := h.placed
  above := h.above
  job := by
    intro c job hc hne
    obtain ⟨h1, h2, h3⟩ := h.job c job hc hne
    refine ⟨?_, h2, h3⟩
    have hiff : (c ∈ (s.returnPermit k).holders) = (c ∈ s.holders) := by
      have hck : c ≠ k := by simpa using hne
      simp [s.mem_returnPermit_holders, hck]
    simpa only [hiff] using h1
  holders := by
    intro c hc hne
    exact h.holders c ((s.mem_returnPermit_holders k c).mp hc).1 hne
  nodup := h.nodup.filter _
  cap := fun n hn => (List.length_filter_le _ _).trans (h.cap n hn)
  top := h.top

/-- A failure keeps the invariant on its way up. -/
theorem failUp_inv {stack : List K} {k f : K} {s : State K R A}
    (h : Inv sys rank capped (some k) s) (hplaced : Placed sys s k stack) :
    Inv sys rank capped none (failUp sys stack k f s) := by
  induction stack generalizing k f s with
  | nil => exact settle_inv h _
  | cons p stack ih =>
      have hs := settle_inv h (.error f)
      unfold failUp
      dsimp only
      split
      · next hp =>
          split
          · refine ih (hs.weaken p) ?_
            have := hs.placed p _ hp
            obtain ⟨_, _, _, hp', _⟩ := hplaced
            obtain ⟨_, _, hp''⟩ := s.settle_running.mp hp
            rw [hp''] at hp'
            obtain ⟨rfl, _⟩ := Job.mk.inj (Status.running.inj hp')
            exact this
          · exact hs
      · exact hs

/-- An initialiser goes on. -/
theorem advance_inv {script : Script K R A} {k : K} {stack : List K} {s : State K R A}
    (h : Inv sys rank capped (some k) s) (hchild : NoChild s k) (hplaced : Placed sys s k stack)
    (habove : ∀ p ∈ stack, rank k < rank p)
    (hpermits : Scoped capped (decide (k ∈ s.holders)) script)
    (hranked : Ranked rank (rank k) script) :
    Inv sys rank capped none (advance sys k stack script s) := by
  induction script generalizing s with
  | done => exact settle_inv h _
  | fail => exact failUp_inv (h.congr rfl rfl) hplaced
  | join groups next => exact put_inv h hchild hplaced habove hpermits hranked trivial
  | acquire next => exact put_inv h hchild hplaced habove hpermits hranked trivial
  | call request next => exact put_inv h hchild hplaced habove hpermits hranked trivial
  | release next ih =>
      apply ih (returnPermit_inv h) hchild hplaced _ hranked
      have hfree : decide (k ∈ (s.returnPermit k).holders) = false := by
        simp [s.mem_returnPermit_holders]
      rw [hfree]
      exact hpermits.2

/-! ### Every step, and every run -/

variable (sys rank capped)

/-- What is asked of the code: each script takes its permits in scope, that of a known cell awaits
lower known cells, and the top one starts at a point where it waits. -/
structure WellFormed : Prop where
  known : rank.known sys.top
  starts : Waits (sys.script sys.top)
  permits : ∀ k, Scoped capped false (sys.script k)
  ranked : ∀ k, rank.known k → Ranked rank (rank k) (sys.script k)

variable {sys rank capped}

theorem Inv.not_mem_holders {s : State K R A} (h : Inv sys rank capped none s) {k : K}
    (hk : s.cells k = .idle) : k ∉ s.holders := by
  intro hmem
  obtain ⟨job, hj⟩ := h.holders k hmem (by simp)
  rw [hk] at hj
  cases hj

theorem acquire_inv {s : State K R A} {p : K} (h : Inv sys rank capped none s)
    (hp : p ∉ s.holders) (hfree : permitFree sys s = true) :
    Inv sys rank capped (some p) { s with holders := p :: s.holders } where
  placed := h.placed
  above := h.above
  job := by
    intro c job hc hne
    obtain ⟨h1, h2, h3⟩ := h.job c job hc (by simp)
    refine ⟨?_, h2, h3⟩
    have hiff : (c ∈ p :: s.holders) = (c ∈ s.holders) := by
      have hcp : c ≠ p := by simpa using hne
      simp [hcp]
    simpa only [hiff] using h1
  holders := by
    intro c hc hne
    have hcp : c ≠ p := by simpa using hne
    exact h.holders c ((List.mem_cons.mp hc).resolve_left hcp) (by simp)
  nodup := List.nodup_cons.mpr ⟨hp, h.nodup⟩
  cap := by
    intro n hn
    unfold permitFree at hfree
    rw [hn] at hfree
    have hlt : s.holders.length < n := by simpa using hfree
    rw [List.length_cons]
    omega
  top := fun _ => h.top (by simp)

/-- At the start only the top cell runs. -/
theorem initial_running {pre : K → Bool} {k : K} {job : Job K R A}
    (h : (initial sys pre).cells k = .running job) :
    k = sys.top ∧ job = ⟨[], sys.script sys.top, false⟩ := by
  unfold initial at h
  dsimp only at h
  split_ifs at h with hk
  exact ⟨hk, (Status.running.inj h).symm⟩

theorem initial_inv (hwf : WellFormed sys rank capped) (pre : K → Bool) :
    Inv sys rank capped none (initial sys pre) where
  placed := by
    intro k job hk
    obtain ⟨rfl, rfl⟩ := initial_running hk
    rfl
  above := by
    intro k job hk
    obtain ⟨rfl, rfl⟩ := initial_running hk
    simp
  job := by
    intro k job hk _
    obtain ⟨rfl, rfl⟩ := initial_running hk
    exact ⟨by simpa [initial] using hwf.permits sys.top, hwf.ranked sys.top hwf.known, hwf.starts⟩
  holders := by simp [initial]
  nodup := List.nodup_nil
  cap := by simp [initial]
  top := by simp [initial]

/-- Once the top cell has its result, nothing runs any more. -/
theorem Inv.not_running_of_settled {s : State K R A} (h : Inv sys rank capped none s)
    {r : Except K Unit} (htop : s.cells sys.top = .settled r) (k : K) (job : Job K R A) :
    s.cells k ≠ .running job := by
  intro hk
  obtain ⟨topJob, hj, _⟩ := h.top_running hk
  rw [htop] at hj
  cases hj

variable [DecidableEq R]

theorem step_inv (hwf : WellFormed sys rank capped) {s s' : State K R A} {e : Event K A}
    (h : Inv sys rank capped none s) (hstep : step sys s e = some s') :
    Inv sys rank capped none s' := by
  cases step_cases hstep with
  | @claim p k stack groups next sent hp hmem hk =>
      have hjob := h.job p _ hp (by simp)
      have hplaced : Placed sys s k (p :: stack) := ⟨groups, next, sent, hp, hmem⟩
      apply advance_inv (h.weaken k) (h.noChild_of_idle hk) hplaced
      · intro q hq
        have hkp := (hjob.ranked.1 k hmem).2
        rcases List.mem_cons.mp hq with rfl | hq
        · exact hkp
        · exact hkp.trans (h.above p _ hp q hq)
      · rw [decide_eq_false (h.not_mem_holders hk)]
        exact hwf.permits k
      · exact hwf.ranked k (hjob.ranked.1 k hmem).1
  | @resume p stack groups next sent hp hall =>
      have hjob := h.job p _ hp (by simp)
      have hchild : NoChild s p := by
        apply h.noChild_of_running hp
        rintro groups' next' hscript c hc
        obtain ⟨rfl, rfl⟩ := Script.join.inj hscript
        exact ⟨_, hall c hc⟩
      apply advance_inv (h.weaken p) hchild (h.placed p _ hp) (h.above p _ hp) _ hjob.ranked.2
      rw [hjob.permits.1]
      exact hjob.permits.2
  | observe hp _ => exact failUp_inv (h.weaken _) (h.placed _ _ hp)
  | @acquire p stack next sent hp hfree =>
      have hjob := h.job p _ hp (by simp)
      have hheld : p ∉ s.holders := by simpa using hjob.permits.1
      have hchild : NoChild s p := h.noChild_of_running hp fun _ _ hscript => by cases hscript
      have hpermits : Scoped capped (decide (p ∈ p :: s.holders)) next := by
        simpa using hjob.permits.2
      have hranked : Ranked rank (rank p) next := hjob.ranked
      exact advance_inv (acquire_inv h hheld hfree) hchild (h.placed p _ hp) (h.above p _ hp)
        hpermits hranked
  | @send p stack request next hp =>
      have hjob := h.job p _ hp (by simp)
      have hchild : NoChild s p := h.noChild_of_running hp fun _ _ hscript => by cases hscript
      have hput : Inv sys rank capped none (s.put p (.running ⟨stack, .call request next, true⟩)) :=
        put_inv (h.weaken p) hchild (h.placed p _ hp) (h.above p _ hp) hjob.permits hjob.ranked
          hjob.waits
      exact hput.congr rfl rfl
  | @answer p stack request next a hp =>
      have hjob := h.job p _ hp (by simp)
      have hchild : NoChild s p := h.noChild_of_running hp fun _ _ hscript => by cases hscript
      exact advance_inv ((h.weaken p).congr rfl rfl) hchild (h.placed p _ hp) (h.above p _ hp)
        (hjob.permits.2 a) (hjob.ranked a)

/-- The invariant holds in every state of every run. -/
theorem reachable_inv (hwf : WellFormed sys rank capped) {pre : K → Bool} {s : State K R A}
    (h : Reachable (step sys) (initial sys pre) s) : Inv sys rank capped none s :=
  h.invariant (initial_inv hwf pre) fun _ _ _ _ hi hs => step_inv hwf hi hs

/-- An initialiser that starts is that of a known cell. -/
theorem Inv.claim_known {s s' : State K R A} (h : Inv sys rank capped none s) {p k : K}
    (hstep : step sys s (.claim p k) = some s') : rank.known k := by
  unfold step at hstep
  dsimp only at hstep
  split at hstep
  · next stack groups next sent hp =>
      split_ifs at hstep with hk
      exact ((h.job p _ hp (by simp)).ranked.1 k hk.1).1
  · cases hstep

theorem step_eq_none_of_settled {s : State K R A} (h : Inv sys rank capped none s)
    {r : Except K Unit} (htop : s.cells sys.top = .settled r) (e : Event K A) :
    step sys s e = none := by
  rw [Option.eq_none_iff_forall_not_mem]
  intro s' hs'
  have hnone := h.not_running_of_settled htop
  cases step_cases hs' with
  | claim hp _ _ => exact hnone _ _ hp
  | resume hp _ => exact hnone _ _ hp
  | observe hp _ => exact hnone _ _ hp
  | acquire hp _ => exact hnone _ _ hp
  | send hp => exact hnone _ _ hp
  | answer hp => exact hnone _ _ hp

end invariant

end Fanout
