import Ratect.FanoutInvariant

/-! # What every run of the initialisers satisfies

* `capped_inFlight` and `exists_step`: the permits bound the calls in flight, and the system never
  gets stuck: while the top cell has no result, a call is in flight or some step is possible.
* `reachable_guardInv`: a call is made only after the cells its script awaits before it have
  succeeded.
* `capped_unanswered`: until something fails, the permits bound the calls without an answer. -/

namespace Fanout

open Transition (Reachable)

variable {K R A : Type}
variable {sys : System K R A} {rank : Ranking K} {capped : R → Prop}

/-! ### Permits and progress -/

section permits

theorem exists_failureOf {s : State K R A} {k : K} (h : ∃ r, s.cells k = .settled r)
    (hk : s.isOk k = false) : ∃ f, s.failureOf k = some f := by
  obtain ⟨r, hr⟩ := h
  cases r with
  | error f => exact ⟨f, by simp [State.failureOf, hr]⟩
  | ok u => simp [State.isOk, hr] at hk

/-- A join whose entries are all settled, not all with success, returns a failure. -/
theorem exists_joinFailure {s : State K R A} {groups : List (List K)}
    (hall : ∀ k ∈ groups.flatten, ∃ r, s.cells k = .settled r)
    (hbad : ∃ k ∈ groups.flatten, s.isOk k = false) : ∃ f, joinFailure sys s groups = some f := by
  obtain ⟨k, hk, hok⟩ := hbad
  obtain ⟨group, hg, hkg⟩ := List.mem_flatten.mp hk
  have hsettled : ∀ c ∈ group, ∃ r, s.cells c = .settled r := fun c hc =>
    hall c (List.mem_flatten.mpr ⟨group, hg, hc⟩)
  have hgroup : ∃ f, groupFailure sys s group = some f := by
    unfold groupFailure
    split_ifs
    · obtain ⟨f, hf⟩ := exists_failureOf (hsettled k hkg) hok
      rw [← Option.isSome_iff_exists, List.findSome?_isSome_iff]
      exact ⟨k, hkg, by simp [hf]⟩
    · have hfind : ∃ c, group.find? (fun k => !s.isOk k) = some c := by
        rw [← Option.isSome_iff_exists, List.find?_isSome]
        exact ⟨k, hkg, by simp [hok]⟩
      obtain ⟨c, hc⟩ := hfind
      have hcok : s.isOk c = false := by simpa using List.find?_some hc
      obtain ⟨f, hf⟩ := exists_failureOf (hsettled c (List.mem_of_find?_eq_some hc)) hcok
      exact ⟨f, by rw [hc, Option.bind_some, hf]⟩
  obtain ⟨f, hf⟩ := hgroup
  unfold joinFailure
  rw [← Option.isSome_iff_exists, List.findSome?_isSome_iff]
  exact ⟨group, hg, by simp [hf]⟩

variable [DecidableEq K]

/-- The call that a cell has sent and whose answer it awaits. -/
def InFlight (s : State K R A) (k : K) (request : R) : Prop :=
  ∃ stack next, s.cells k = .running ⟨stack, .call request next, true⟩

theorem Inv.holds_of_inFlight {s : State K R A} (h : Inv sys rank capped none s) {k : K}
    {request : R} (hk : InFlight s k request) (hc : capped request) : k ∈ s.holders := by
  obtain ⟨stack, next, hrun⟩ := hk
  have hpermits := (h.job k _ hrun (by simp)).permits
  simpa using hpermits.1 hc

/-- At most as many capped calls are in flight as there are permits. -/
theorem capped_inFlight {s : State K R A} (h : Inv sys rank capped none s) {n : ℕ}
    (hcap : sys.cap = some n) (l : List K) (hl : l.Nodup)
    (hflight : ∀ k ∈ l, ∃ request, InFlight s k request ∧ capped request) : l.length ≤ n := by
  have hsub : l ⊆ s.holders := by
    intro k hk
    obtain ⟨request, hr, hc⟩ := hflight k hk
    exact h.holds_of_inFlight hr hc
  have hle : l.length ≤ s.holders.length := (List.subperm_of_subset hl hsub).length_le
  exact hle.trans (h.cap n hcap)

/-- An initialiser that holds a permit is at a call: it waits for no cell and for no permit. -/
theorem Inv.call_of_holder {s : State K R A} (h : Inv sys rank capped none s) {k : K}
    (hk : k ∈ s.holders) : ∃ stack request next sent,
      s.cells k = .running ⟨stack, .call request next, sent⟩ := by
  obtain ⟨⟨stack, script, sent⟩, hrun⟩ := h.holders k hk (by simp)
  obtain ⟨hpermits, _, hwaits⟩ := h.job k _ hrun (by simp)
  rw [decide_eq_true hk] at hpermits
  cases script with
  | done => cases hwaits
  | fail => cases hwaits
  | release next => cases hwaits
  | join groups next => exact absurd hpermits.1 (by simp)
  | acquire next => exact absurd hpermits.1 (by simp)
  | call request next => exact ⟨stack, request, next, sent, hrun⟩

variable [DecidableEq R]

/-- The system can move by itself, or a call is in flight. -/
def Moves (sys : System K R A) (s : State K R A) : Prop :=
  (∃ k request, InFlight s k request) ∨
    ∃ e s', (∀ k a, e ≠ .answer k a) ∧ step sys s e = some s'

theorem moves_of_call {s : State K R A} {k : K} {stack : List K} {request : R}
    {next : A → Script K R A} {sent : Bool}
    (h : s.cells k = .running ⟨stack, .call request next, sent⟩) : Moves sys s := by
  cases sent with
  | true => exact .inl ⟨k, request, stack, next, h⟩
  | false => exact .inr ⟨.send k, _, by simp, step_of_cases (.send h)⟩

/-- A running initialiser means that something can move, by induction on its rank: what it waits
for is a permit, whose holder is at a call, or a cell of lower rank. -/
theorem moves_of_running {s : State K R A} (h : Inv sys rank capped none s)
    (hcap : ∀ n, sys.cap = some n → 1 ≤ n) (k : K) (job : Job K R A)
    (hk : s.cells k = .running job) : Moves sys s := by
  induction hn : rank k using Nat.strong_induction_on generalizing k job with
  | _ n ih =>
      obtain ⟨stack, script, sent⟩ := job
      obtain ⟨hpermits, hranked, hwaits⟩ := h.job k _ hk (by simp)
      cases script with
      | done => cases hwaits
      | fail => cases hwaits
      | release next => cases hwaits
      | call request next => exact moves_of_call hk
      | acquire next =>
          by_cases hfree : permitFree sys s = true
          · exact .inr ⟨.acquire k, _, by simp, step_of_cases (.acquire hk hfree)⟩
          · unfold permitFree at hfree
            cases hc : sys.cap with
            | none => simp [hc] at hfree
            | some m =>
                have hm := hcap m hc
                have hlen : m ≤ s.holders.length := by simpa [hc] using hfree
                obtain ⟨c, hmem⟩ : ∃ c, c ∈ s.holders := by
                  apply List.exists_mem_of_length_pos
                  omega
                obtain ⟨_, _, _, _, hcall⟩ := h.call_of_holder hmem
                exact moves_of_call hcall
      | join groups next =>
          by_cases hidle : ∃ c ∈ groups.flatten, s.cells c = .idle
          · obtain ⟨c, hc, hidle⟩ := hidle
            exact .inr ⟨.claim k c, _, by simp, step_of_cases (.claim hk hc hidle)⟩
          by_cases hrunning : ∃ c ∈ groups.flatten, ∃ cjob, s.cells c = .running cjob
          · obtain ⟨c, hc, cjob, hrun⟩ := hrunning
            exact ih (rank c) (by rw [← hn]; exact (hranked.1 c hc).2) c cjob hrun rfl
          have hsettled : ∀ c ∈ groups.flatten, ∃ r, s.cells c = .settled r := by
            intro c hc
            cases hcell : s.cells c with
            | idle => exact absurd ⟨c, hc, hcell⟩ hidle
            | running cjob => exact absurd ⟨c, hc, cjob, hcell⟩ hrunning
            | settled r => exact ⟨r, rfl⟩
          by_cases hall : ∀ c ∈ groups.flatten, s.isOk c = true
          · have hok : ∀ c ∈ groups.flatten, s.cells c = .settled (.ok ()) :=
              fun c hc => (isOk_iff s c).mp (hall c hc)
            exact .inr ⟨.resume k, _, by simp, step_of_cases (.resume hk hok)⟩
          · push Not at hall
            obtain ⟨c, hc, hok⟩ := hall
            obtain ⟨f, hf⟩ := exists_joinFailure hsettled ⟨c, hc, by simpa using hok⟩
            exact .inr ⟨.observe k, _, by simp, step_of_cases (.observe hk hf)⟩

/-- No deadlock: while the top cell has no result, something can move. -/
theorem exists_step {s : State K R A} (h : Inv sys rank capped none s)
    (hcap : ∀ n, sys.cap = some n → 1 ≤ n) (htop : ∀ r, s.cells sys.top ≠ .settled r) :
    Moves sys s := by
  cases hcell : s.cells sys.top with
  | idle => exact absurd hcell (h.top (by simp))
  | settled r => exact absurd hcell (htop r)
  | running job => exact moves_of_running h hcap sys.top job hcell

end permits

/-! ### What a step does to a cell -/

section change

/-- A script from its next waiting point, or its end, on: the permits it returns first are left
out. -/
def Script.rest : Script K R A → Script K R A
  | .release next => next.rest
  | script => script

/-- Two states with the same calls. -/
structure SameCalls (s s' : State K R A) : Prop where
  issued : s'.issued = s.issued
  unanswered : s'.unanswered = s.unanswered
  answers : s'.answers = s.answers

/-- Two states that differ in the permits only. -/
structure SameRecord (s s' : State K R A) : Prop extends SameCalls s s' where
  cells : s'.cells = s.cells
  failures : s'.failures = s.failures

theorem SameCalls.refl (s : State K R A) : SameCalls s s := ⟨rfl, rfl, rfl⟩

theorem SameRecord.refl (s : State K R A) : SameRecord s s := ⟨.refl s, rfl, rfl⟩

/-- The cell holds no result yet. -/
def Open (s : State K R A) (k : K) : Prop := ∀ r, s.cells k ≠ .settled r

/-- Where a cell comes from when it goes on with a script: it is claimed, its join or its permit
is there, or its call is answered. -/
inductive Arrives (sys : System K R A) (s : State K R A) (k : K) : List K → Script K R A → Prop
  | claimed {p : K} {stack : List K} {groups : List (List K)} {next : Script K R A} {sent : Bool} :
      s.cells p = .running ⟨stack, .join groups next, sent⟩ → k ∈ groups.flatten →
      s.cells k = .idle → Arrives sys s k (p :: stack) (sys.script k)
  | resumed {stack : List K} {groups : List (List K)} {next : Script K R A} {sent : Bool} :
      s.cells k = .running ⟨stack, .join groups next, sent⟩ →
      (∀ c ∈ groups.flatten, s.cells c = .settled (.ok ())) → Arrives sys s k stack next
  | acquired {stack : List K} {next : Script K R A} {sent : Bool} :
      s.cells k = .running ⟨stack, .acquire next, sent⟩ → Arrives sys s k stack next
  | answered {stack : List K} {request : R} {next : A → Script K R A} (a : A) :
      s.cells k = .running ⟨stack, .call request next, true⟩ → Arrives sys s k stack (next a)

theorem Arrives.isOpen {s : State K R A} {k : K} {stack : List K} {script : Script K R A}
    (h : Arrives sys s k stack script) : Open s k := by
  intro r hr
  cases h with
  | claimed _ _ hk => rw [hr] at hk; cases hk
  | resumed hk _ => rw [hr] at hk; cases hk
  | acquired hk => rw [hr] at hk; cases hk
  | answered _ hk => rw [hr] at hk; cases hk

/-- A property of scripts that passes to what follows. -/
structure Hereditary (Q : Script K R A → Prop) : Prop where
  join : ∀ groups next, Q (.join groups next) → Q next
  acquire : ∀ next, Q (.acquire next) → Q next
  release : ∀ next, Q (.release next) → Q next
  call : ∀ request next, Q (.call request next) → ∀ a, Q (next a)

theorem Hereditary.rest {Q : Script K R A → Prop} (hQ : Hereditary Q) {script : Script K R A}
    (h : Q script) : Q script.rest := by
  induction script with
  | release next ih => exact ih (hQ.release next h)
  | done => exact h
  | fail => exact h
  | join groups next => exact h
  | acquire next => exact h
  | call request next => exact h

variable [DecidableEq K]

/-- Where an initialiser comes when it goes on: to its end, to a failure, or to the next point
where it waits. -/
theorem advance_cases (sys : System K R A) (k : K) (stack : List K) (script : Script K R A)
    (s : State K R A) :
    ∃ s₀, SameRecord s s₀ ∧
      ((script.rest = .done ∧ advance sys k stack script s = s₀.settle k (.ok ())) ∨
      (script.rest = .fail ∧ advance sys k stack script s =
        failUp sys stack k k { s₀ with failures := s₀.failures ++ [k] }) ∨
      (Waits script.rest ∧
        advance sys k stack script s = s₀.put k (.running ⟨stack, script.rest, false⟩))) := by
  induction script generalizing s with
  | done => exact ⟨s, .refl s, .inl ⟨rfl, rfl⟩⟩
  | fail => exact ⟨s, .refl s, .inr (.inl ⟨rfl, rfl⟩)⟩
  | join groups next => exact ⟨s, .refl s, .inr (.inr ⟨trivial, rfl⟩)⟩
  | acquire next => exact ⟨s, .refl s, .inr (.inr ⟨trivial, rfl⟩)⟩
  | call request next => exact ⟨s, .refl s, .inr (.inr ⟨trivial, rfl⟩)⟩
  | release next ih =>
      obtain ⟨s₀, ⟨⟨h1, h2, h3⟩, h4, h5⟩, h⟩ := ih (s.returnPermit k)
      exact ⟨s₀, ⟨⟨h1, h2, h3⟩, h4, h5⟩, h⟩

/-- What every single failure keeps, a failure on its way up keeps. -/
theorem failUp_keeps {P : State K R A → Prop}
    (hP : ∀ s k f, Open s k → P s → P (s.settle k (.error f))) {stack : List K} {k f : K}
    {s : State K R A} (hk : Open s k) (hs : P s) : P (failUp sys stack k f s) := by
  induction stack generalizing k f s with
  | nil => exact hP s k f hk hs
  | cons p stack ih =>
      unfold failUp
      dsimp only
      split
      · next hp =>
          split
          · apply ih _ (hP s k f hk hs)
            intro r hr
            rw [hp] at hr
            cases hr
          · exact hP s k f hk hs
      · exact hP s k f hk hs

/-- It touches nothing but cells and permits. -/
theorem failUp_record (sys : System K R A) (stack : List K) {k : K} (f : K) {s : State K R A}
    (hk : Open s k) :
    SameCalls s (failUp sys stack k f s) ∧ (failUp sys stack k f s).failures = s.failures :=
  failUp_keeps (P := fun s' => SameCalls s s' ∧ s'.failures = s.failures)
    (fun _ _ _ _ h => ⟨⟨h.1.issued, h.1.unanswered, h.1.answers⟩, h.2⟩) hk ⟨.refl s, rfl⟩

/-- A failure leaves a cell as it is, fails it where it had no result, or drops it. -/
theorem failUp_cells (sys : System K R A) (stack : List K) {k : K} (f : K) {s : State K R A}
    (hk : Open s k) (c : K) :
    let s' := failUp sys stack k f s
    s'.cells c = s.cells c ∨ (Open s c ∧ ∃ f, s'.cells c = .settled (.error f)) ∨
      ∃ job, s.cells c = .running job ∧ s'.cells c = .idle := by
  refine failUp_keeps (P := fun s' => ∀ c, s'.cells c = s.cells c ∨
    (Open s c ∧ ∃ f, s'.cells c = .settled (.error f)) ∨
    ∃ job, s.cells c = .running job ∧ s'.cells c = .idle) ?_ hk (fun c => .inl rfl) c
  intro s' k f hk ih c
  rw [s'.settle_cells]
  split_ifs with hck hruns
  · rw [hck]
    refine .inr (.inl ⟨?_, f, rfl⟩)
    intro r hr
    rcases ih k with h | ⟨hopen, _⟩ | ⟨job, h, _⟩
    · exact hk r (h.trans hr)
    · exact hopen r hr
    · rw [h] at hr
      cases hr
  · cases hcell : s'.cells c with
    | idle => simp [State.runsFor, hcell] at hruns
    | settled r => simp [State.runsFor, hcell] at hruns
    | running job =>
        rcases ih c with h | ⟨_, f', h⟩ | ⟨_, _, h⟩
        · exact .inr (.inr ⟨job, h.symm.trans hcell, rfl⟩)
        · rw [hcell] at h
          cases h
        · rw [hcell] at h
          cases h
  · exact ih c

/-- Going on leaves the record of calls alone. -/
theorem advance_record {k : K} {stack : List K} {script : Script K R A} {s : State K R A}
    (hk : Open s k) : SameCalls s (advance sys k stack script s) := by
  obtain ⟨s₁, hsame, ⟨_, heq⟩ | ⟨_, heq⟩ | ⟨_, heq⟩⟩ := advance_cases sys k stack script s
  · rw [heq]
    exact ⟨hsame.issued, hsame.unanswered, hsame.answers⟩
  · have hopen : Open { s₁ with failures := s₁.failures ++ [k] } k := by
      intro r hr
      dsimp only at hr
      rw [hsame.cells] at hr
      exact hk r hr
    have hrecord := (failUp_record sys stack k hopen).1
    rw [heq]
    exact ⟨hrecord.issued.trans hsame.issued, hrecord.unanswered.trans hsame.unanswered,
      hrecord.answers.trans hsame.answers⟩
  · rw [heq]
    exact ⟨hsame.issued, hsame.unanswered, hsame.answers⟩

/-- What a step can do to a cell. -/
inductive Change (sys : System K R A) (s s' : State K R A) (c : K) : Prop
  | same : s'.cells c = s.cells c → Change sys s s' c
  | sent {stack : List K} {request : R} {next : A → Script K R A} :
      s.cells c = .running ⟨stack, .call request next, false⟩ →
      s'.cells c = .running ⟨stack, .call request next, true⟩ →
      s'.issued = s.issued ++ [(c, request)] → Change sys s s' c
  | moved {stack : List K} {script : Script K R A} :
      Arrives sys s c stack script → s'.cells c = .running ⟨stack, script.rest, false⟩ →
      Change sys s s' c
  | ended {stack : List K} {script : Script K R A} :
      Arrives sys s c stack script → script.rest = .done → s'.cells c = .settled (.ok ()) →
      Change sys s s' c
  | failed {f : K} : Open s c → s'.cells c = .settled (.error f) → Change sys s s' c
  | dropped {job : Job K R A} : s.cells c = .running job → s'.cells c = .idle → Change sys s s' c

theorem change_of_failUp {stack : List K} {k f : K} {s s₀ : State K R A} (hk : Open s k)
    (hcells : s₀.cells = s.cells) (c : K) : Change sys s (failUp sys stack k f s₀) c := by
  have hk₀ : Open s₀ k := by
    unfold Open
    rw [hcells]
    exact hk
  have h := failUp_cells sys stack f hk₀ c
  unfold Open at h
  rw [hcells] at h
  rcases h with h | ⟨hopen, f', h⟩ | ⟨job, hrun, h⟩
  · exact .same h
  · exact .failed hopen h
  · exact .dropped hrun h

variable [DecidableEq R]

/-- The cell whose initialiser takes the step. -/
def Event.actor : Event K A → K
  | .claim _ k => k
  | .resume k => k
  | .observe k => k
  | .acquire k => k
  | .send k => k
  | .answer k _ => k

/-- Every step sends a call, reports a failure or lets one initialiser go on. -/
theorem step_shape {s s' : State K R A} {e : Event K A} (h : step sys s e = some s') :
    (∃ k stack request next, e = .send k ∧
      s.cells k = .running ⟨stack, .call request next, false⟩ ∧
      s' = { (s.put k (.running ⟨stack, .call request next, true⟩)) with
        issued := s.issued ++ [(k, request)], unanswered := s.unanswered ++ [(k, request)] }) ∨
    (∃ k f job groups next, s.cells k = .running job ∧ job.script = .join groups next ∧
      joinFailure sys s groups = some f ∧ s' = failUp sys job.stack k f s) ∨
    ∃ stack script s₀, Arrives sys s e.actor stack script ∧ s₀.cells = s.cells ∧
      s₀.issued = s.issued ∧ s₀.failures = s.failures ∧
      s' = advance sys e.actor stack script s₀ := by
  cases step_cases h with
  | claim hp hmem hk => exact .inr (.inr ⟨_, _, s, .claimed hp hmem hk, rfl, rfl, rfl, rfl⟩)
  | resume hp hall => exact .inr (.inr ⟨_, _, s, .resumed hp hall, rfl, rfl, rfl, rfl⟩)
  | observe hp hf => exact .inr (.inl ⟨_, _, _, _, _, hp, rfl, hf, rfl⟩)
  | acquire hp _ =>
      exact .inr (.inr ⟨_, _, { s with holders := _ :: s.holders }, .acquired hp,
        rfl, rfl, rfl, rfl⟩)
  | send hp => exact .inl ⟨_, _, _, _, rfl, hp, rfl⟩
  | @answer p _ request _ a hp =>
      exact .inr (.inr ⟨_, _, { s with unanswered := _, answers := s.answers ++ [(p, request, a)] },
        .answered a hp, rfl, rfl, rfl, rfl⟩)

theorem step_change {s s' : State K R A} {e : Event K A} (h : step sys s e = some s') (c : K) :
    Change sys s s' c := by
  rcases step_shape h with
      ⟨k, stack, request, next, _, hk, rfl⟩ | ⟨k, f, kjob, groups, next, hk, _, _, rfl⟩ |
      ⟨stack, script, s₀, harr, hcells, _, _, rfl⟩
  · by_cases hck : c = k
    · subst hck
      exact .sent hk (by simp) rfl
    · exact .same (by simp [hck])
  · apply change_of_failUp _ rfl
    intro r hr
    rw [hk] at hr
    cases hr
  · generalize e.actor = k at harr ⊢
    obtain ⟨s₁, hsame, hcase⟩ := advance_cases sys k stack script s₀
    have hcells₁ : s₁.cells = s.cells := hsame.cells.trans hcells
    rcases hcase with ⟨hdone, heq⟩ | ⟨_, heq⟩ | ⟨_, heq⟩
    · rw [heq]
      by_cases hck : c = k
      · subst hck
        exact .ended harr hdone (s₁.settle_cells_self c _)
      · cases hruns : s₁.runsFor k c with
        | false => exact .same (by rw [s₁.settle_cells, if_neg hck, hruns, hcells₁]; simp)
        | true =>
            cases hcell : s.cells c with
            | idle => simp [State.runsFor, hcells₁, hcell] at hruns
            | settled r => simp [State.runsFor, hcells₁, hcell] at hruns
            | running job =>
                exact .dropped hcell (by rw [s₁.settle_cells, if_neg hck, if_pos hruns])
    · rw [heq]
      refine change_of_failUp harr.isOpen ?_ c
      exact hcells₁
    · rw [heq]
      by_cases hck : c = k
      · subst hck
        exact .moved harr (by simp)
      · exact .same (by rw [s₁.put_cells, if_neg hck, hcells₁])

/-- Results are final. -/
theorem step_settled {s s' : State K R A} {e : Event K A} (h : step sys s e = some s') {c : K}
    {r : Except K Unit} (hc : s.cells c = .settled r) : s'.cells c = .settled r := by
  cases step_change h c with
  | same hs => rw [hs, hc]
  | sent hk _ _ => rw [hc] at hk; cases hk
  | moved harr _ => exact absurd hc (harr.isOpen r)
  | ended harr _ _ => exact absurd hc (harr.isOpen r)
  | failed hopen _ => exact absurd hc (hopen r)
  | dropped hk _ => rw [hc] at hk; cases hk

/-- Calls are recorded when they are sent, and only then. -/
theorem step_issued {s s' : State K R A} {e : Event K A} (h : step sys s e = some s') :
    s'.issued = s.issued ∨ ∃ k request, s'.issued = s.issued ++ [(k, request)] ∧
      ∃ stack next, s.cells k = .running ⟨stack, .call request next, false⟩ ∧
        s'.cells k = .running ⟨stack, .call request next, true⟩ := by
  rcases step_shape h with
      ⟨k, stack, request, next, _, hk, rfl⟩ | ⟨k, f, kjob, groups, next, hk, _, _, rfl⟩ |
      ⟨stack, script, s₀, harr, hcells, hissued, _, rfl⟩
  · exact .inr ⟨k, request, rfl, stack, next, hk, by simp⟩
  · left
    refine (failUp_record sys _ _ ?_).1.issued
    intro r hr
    rw [hk] at hr
    cases hr
  · left
    have hopen : Open s₀ e.actor := by
      intro r hr
      rw [hcells] at hr
      exact harr.isOpen r hr
    rw [(advance_record hopen).issued, hissued]

/-- Such a property of the scripts is one of every initialiser at every point. -/
theorem reachable_scripts {Q : K → Script K R A → Prop} (hQ : ∀ k, Hereditary (Q k))
    (hscripts : ∀ k, Q k (sys.script k)) {pre : K → Bool} {s : State K R A}
    (h : Reachable (step sys) (initial sys pre) s) :
    ∀ k job, s.cells k = .running job → Q k job.script := by
  refine h.invariant (P := fun s => ∀ k job, s.cells k = .running job → Q k job.script) ?_ ?_
  · intro k job hk
    obtain ⟨rfl, rfl⟩ := initial_running hk
    exact hscripts sys.top
  · intro s e s' _ hs hstep k job hk
    cases step_change hstep k with
    | same hsame => exact hs k job (hsame.symm.trans hk)
    | sent hbefore hafter _ =>
        rw [hk] at hafter
        obtain rfl := Status.running.inj hafter
        have hscript := hs k _ hbefore
        exact hscript
    | @moved stack script harr hafter =>
        rw [hk] at hafter
        obtain rfl := Status.running.inj hafter
        apply (hQ k).rest
        cases harr with
        | claimed _ _ _ => exact hscripts k
        | resumed hbefore _ => exact (hQ k).join _ _ (hs k _ hbefore)
        | acquired hbefore => exact (hQ k).acquire _ (hs k _ hbefore)
        | answered a hbefore => exact (hQ k).call _ _ (hs k _ hbefore) a
    | ended _ _ hafter => rw [hk] at hafter; cases hafter
    | failed _ hafter => rw [hk] at hafter; cases hafter
    | dropped _ hafter => rw [hk] at hafter; cases hafter

end change

/-! ### Calls come after what their scripts await -/

section guards

/-- With the cells `joined` awaited so far: every call comes after the cells it needs, and the end
after the cells that the end needs. -/
def Guarded (need : R → List K) (needEnd : List K) : List K → Script K R A → Prop
  | joined, .done => ∀ c ∈ needEnd, c ∈ joined
  | _, .fail => True
  | joined, .join groups next => Guarded need needEnd (joined ++ groups.flatten) next
  | joined, .acquire next => Guarded need needEnd joined next
  | joined, .release next => Guarded need needEnd joined next
  | joined, .call request next =>
      (∀ c ∈ need request, c ∈ joined) ∧ ∀ a, Guarded need needEnd joined (next a)

theorem Guarded.rest {need : R → List K} {needEnd joined : List K} {script : Script K R A}
    (h : Guarded need needEnd joined script) : Guarded need needEnd joined script.rest := by
  induction script with
  | release next ih => exact ih h
  | done => exact h
  | fail => exact h
  | join groups next => exact h
  | acquire next => exact h
  | call request next => exact h

variable {need : R → List K} {needEnd : K → List K} {pre : K → Bool}

/-- What was awaited has succeeded: by every running initialiser, for every call made, and for
every cell that succeeded. -/
structure GuardInv (need : R → List K) (needEnd : K → List K) (pre : K → Bool)
    (s : State K R A) : Prop where
  running : ∀ k job, s.cells k = .running job → ∃ joined,
    (∀ c ∈ joined, s.cells c = .settled (.ok ())) ∧ Guarded need (needEnd k) joined job.script
  issued : ∀ k request, (k, request) ∈ s.issued →
    ∀ c ∈ need request, s.cells c = .settled (.ok ())
  ended : ∀ k, s.cells k = .settled (.ok ()) → pre k = false →
    ∀ c ∈ needEnd k, s.cells c = .settled (.ok ())

theorem Arrives.guarded (hscripts : ∀ k, Guarded need (needEnd k) [] (sys.script k))
    {s : State K R A} (h : GuardInv need needEnd pre s) {k : K} {stack : List K}
    {script : Script K R A} (harr : Arrives sys s k stack script) : ∃ joined,
      (∀ c ∈ joined, s.cells c = .settled (.ok ())) ∧ Guarded need (needEnd k) joined script := by
  cases harr with
  | claimed _ _ _ => exact ⟨[], by simp, hscripts k⟩
  | resumed hk hall =>
      obtain ⟨joined, hjoined, hguard⟩ := h.running k _ hk
      refine ⟨joined ++ _, fun c hc => ?_, hguard⟩
      rcases List.mem_append.mp hc with hc | hc
      · exact hjoined c hc
      · exact hall c hc
  | acquired hk =>
      obtain ⟨joined, hjoined, hguard⟩ := h.running k _ hk
      exact ⟨joined, hjoined, hguard⟩
  | answered a hk =>
      obtain ⟨joined, hjoined, hguard⟩ := h.running k _ hk
      exact ⟨joined, hjoined, hguard.2 a⟩

variable [DecidableEq K] [DecidableEq R]

theorem step_guardInv (hscripts : ∀ k, Guarded need (needEnd k) [] (sys.script k))
    {s s' : State K R A} {e : Event K A} (h : GuardInv need needEnd pre s)
    (hstep : step sys s e = some s') : GuardInv need needEnd pre s' := by
  have hkeep : ∀ l : List K, (∀ c ∈ l, s.cells c = .settled (.ok ())) →
      ∀ c ∈ l, s'.cells c = .settled (.ok ()) := fun l hl c hc => step_settled hstep (hl c hc)
  refine ⟨?_, ?_, ?_⟩
  · intro k job hk
    cases step_change hstep k with
    | same hs =>
        obtain ⟨joined, hjoined, hguard⟩ := h.running k job (hs.symm.trans hk)
        exact ⟨joined, hkeep joined hjoined, hguard⟩
    | sent hbefore hafter _ =>
        rw [hk] at hafter
        obtain rfl := Status.running.inj hafter
        obtain ⟨joined, hjoined, hguard⟩ := h.running k _ hbefore
        exact ⟨joined, hkeep joined hjoined, hguard⟩
    | moved harr hafter =>
        rw [hk] at hafter
        obtain rfl := Status.running.inj hafter
        obtain ⟨joined, hjoined, hguard⟩ := harr.guarded hscripts h
        exact ⟨joined, hkeep joined hjoined, hguard.rest⟩
    | ended _ _ hafter => rw [hk] at hafter; cases hafter
    | failed _ hafter => rw [hk] at hafter; cases hafter
    | dropped _ hafter => rw [hk] at hafter; cases hafter
  · intro k request hmem
    rcases step_issued hstep with hsame | ⟨k', request', happ, stack, next, hk', _⟩
    · rw [hsame] at hmem
      exact hkeep _ (h.issued k request hmem)
    · rw [happ, List.mem_append, List.mem_singleton] at hmem
      rcases hmem with hmem | hmem
      · exact hkeep _ (h.issued k request hmem)
      · obtain ⟨rfl, rfl⟩ := Prod.mk.inj hmem
        obtain ⟨joined, hjoined, hguard⟩ := h.running k _ hk'
        exact hkeep _ fun c hc => hjoined c (hguard.1 c hc)
  · intro k hk hpre
    cases step_change hstep k with
    | same hs => exact hkeep _ (h.ended k (hs.symm.trans hk) hpre)
    | sent _ hafter _ => rw [hk] at hafter; cases hafter
    | moved _ hafter => rw [hk] at hafter; cases hafter
    | ended harr hdone _ =>
        obtain ⟨joined, hjoined, hguard⟩ := harr.guarded hscripts h
        have hend := hguard.rest
        rw [hdone] at hend
        exact hkeep _ fun c hc => hjoined c (hend c hc)
    | failed _ hafter => rw [hk] at hafter; cases hafter
    | dropped _ hafter => rw [hk] at hafter; cases hafter

theorem reachable_guardInv (hscripts : ∀ k, Guarded need (needEnd k) [] (sys.script k))
    {s : State K R A} (h : Reachable (step sys) (initial sys pre) s) :
    GuardInv need needEnd pre s := by
  refine h.invariant ⟨?_, ?_, ?_⟩ fun _ _ _ _ hi hs => step_guardInv hscripts hi hs
  · intro k job hk
    obtain ⟨rfl, rfl⟩ := initial_running hk
    exact ⟨[], by simp, hscripts sys.top⟩
  · simp [initial]
  · intro k hk hpre
    by_cases htop : k = sys.top
    · simp [initial, htop] at hk
    · simp [initial, htop, hpre] at hk

end guards

/-! ### Before the first failure -/

section calm

variable {pre : K → Bool}

theorem joinFailure_eq_none {s : State K R A} (h : ∀ c f, s.cells c ≠ .settled (.error f))
    (groups : List (List K)) : joinFailure sys s groups = none := by
  have hfailure : ∀ c, s.failureOf c = none := by
    intro c
    unfold State.failureOf
    split
    · next hc => exact absurd hc (h c _)
    · rfl
  unfold joinFailure
  rw [List.findSome?_eq_none_iff]
  intro group _
  unfold groupFailure
  split_ifs
  · rw [List.findSome?_eq_none_iff]
    exact fun c _ => hfailure c
  · cases group.find? fun k => !s.isOk k with
    | none => rfl
    | some c => exact hfailure c

variable [DecidableEq K]

/-- An initialiser that goes on has nothing running inside of it. -/
theorem Arrives.noChild {s : State K R A} (h : Inv sys rank capped none s) {k : K}
    {stack : List K} {script : Script K R A} (harr : Arrives sys s k stack script) :
    NoChild s k := by
  cases harr with
  | claimed _ _ hk => exact h.noChild_of_idle hk
  | resumed hk hall =>
      apply h.noChild_of_running hk
      rintro groups next hscript c hc
      obtain ⟨rfl, rfl⟩ := Script.join.inj hscript
      exact ⟨_, hall c hc⟩
  | acquired hk => exact h.noChild_of_running hk fun _ _ hscript => by cases hscript
  | answered _ hk => exact h.noChild_of_running hk fun _ _ hscript => by cases hscript

variable [DecidableEq R]

/-- Nothing fails without a record. -/
def NoError (s : State K R A) : Prop :=
  s.failures = [] → ∀ c f, s.cells c ≠ .settled (.error f)

/-- A step after which nothing has failed changes one cell, and neither fails nor drops it. -/
theorem step_calm {s s' : State K R A} {e : Event K A} (hinv : Inv sys rank capped none s)
    (hno : NoError s) (h : step sys s e = some s') (hnil : s'.failures = []) :
    s.failures = [] ∧ (∀ c, c ≠ e.actor → s'.cells c = s.cells c) ∧
      s'.cells e.actor ≠ .idle ∧ ∀ f, s'.cells e.actor ≠ .settled (.error f) := by
  rcases step_shape h with
      ⟨k, stack, request, next, rfl, hk, rfl⟩ | ⟨k, f, kjob, groups, next, hk, _, hf, rfl⟩ |
      ⟨stack, script, s₀, harr, hcells, _, hfailures, rfl⟩
  · refine ⟨hnil, fun c hc => ?_, by simp [Event.actor], by simp [Event.actor]⟩
    have hck : c ≠ k := hc
    dsimp only
    rw [s.put_cells, if_neg hck]
  · have hopen : Open s k := by
      intro r hr
      rw [hk] at hr
      cases hr
    have hnil' : s.failures = [] := (failUp_record sys _ _ hopen).2.symm.trans hnil
    rw [joinFailure_eq_none (hno hnil')] at hf
    cases hf
  · generalize e.actor = k at harr hnil ⊢
    obtain ⟨s₁, hsame, hcase⟩ := advance_cases sys k stack script s₀
    have hcells₁ : s₁.cells = s.cells := hsame.cells.trans hcells
    have hfailures₁ : s₁.failures = s.failures := hsame.failures.trans hfailures
    rcases hcase with ⟨_, heq⟩ | ⟨_, heq⟩ | ⟨_, heq⟩
    · rw [heq] at hnil ⊢
      refine ⟨hfailures₁.symm.trans hnil, fun c hc => ?_, ?_, ?_⟩
      · have hruns : s₁.runsFor k c = false := by
          unfold State.runsFor
          rw [hcells₁]
          cases hcell : s.cells c with
          | idle => rfl
          | settled r => rfl
          | running job => simpa using harr.noChild hinv c job hcell
        rw [s₁.settle_cells, if_neg hc, if_neg (by simp [hruns]), hcells₁]
      · simp [s₁.settle_cells_self]
      · simp [s₁.settle_cells_self]
    · exfalso
      have hopen : Open { s₁ with failures := s₁.failures ++ [k] } k := by
        intro r hr
        dsimp only at hr
        rw [hcells₁] at hr
        exact harr.isOpen r hr
      rw [heq, (failUp_record sys _ _ hopen).2] at hnil
      simp at hnil
    · rw [heq] at hnil ⊢
      refine ⟨hfailures₁.symm.trans hnil, fun c hc => ?_, by simp, by simp⟩
      rw [s₁.put_cells, if_neg hc, hcells₁]

theorem reachable_noError (hwf : WellFormed sys rank capped) {s : State K R A}
    (h : Reachable (step sys) (initial sys pre) s) : NoError s := by
  refine h.invariant ?_ ?_
  · intro _ c f hc
    unfold initial at hc
    dsimp only at hc
    split_ifs at hc
    cases hc
  · intro s e s' hr hno hstep hnil c f hc
    obtain ⟨hnil', hsame, _, hok⟩ := step_calm (reachable_inv hwf hr) hno hstep hnil
    by_cases hactor : c = e.actor
    · subst hactor
      exact hok f hc
    · exact hno hnil' c f ((hsame c hactor).symm.trans hc)

/-- Until something fails, the calls that are not answered are those in flight. -/
def AwaitInv (s : State K R A) : Prop :=
  s.failures = [] → s.unanswered.Nodup ∧
    ∀ k request, (k, request) ∈ s.unanswered → InFlight s k request

theorem step_awaitInv {s s' : State K R A} {e : Event K A} (hinv : Inv sys rank capped none s)
    (hno : NoError s) (h : AwaitInv s) (hstep : step sys s e = some s') : AwaitInv s' := by
  intro hnil
  obtain ⟨hnil', hsame, _⟩ := step_calm hinv hno hstep hnil
  obtain ⟨hnodup, hflight⟩ := h hnil'
  -- a call of another cell is as it was; so is one of this cell, if it had one
  have hkeep : ∀ k request, (k, request) ∈ s.unanswered →
      (∀ stack next, s.cells e.actor ≠ .running ⟨stack, .call request next, true⟩) →
      InFlight s' k request := by
    intro k request hmem hactor
    obtain ⟨stack, next, hrun⟩ := hflight k request hmem
    refine ⟨stack, next, ?_⟩
    rw [hsame k _, hrun]
    rintro rfl
    exact hactor stack next hrun
  cases step_cases hstep with
  | @claim p k stack groups next sent hp hmem hk =>
      have hopen : Open s k := fun r hr => by rw [hk] at hr; cases hr
      rw [(advance_record hopen).unanswered]
      refine ⟨hnodup, fun c request hc => hkeep c request hc fun stack next hrun => ?_⟩
      rw [show (Event.claim p k : Event K A).actor = k from rfl, hk] at hrun
      cases hrun
  | @resume p stack groups next sent hp hall =>
      have hopen : Open s p := fun r hr => by rw [hp] at hr; cases hr
      rw [(advance_record hopen).unanswered]
      refine ⟨hnodup, fun c request hc => hkeep c request hc fun stack next hrun => ?_⟩
      rw [show (Event.resume p : Event K A).actor = p from rfl, hp] at hrun
      cases hrun
  | @observe p f stack groups next sent hp hf =>
      rw [joinFailure_eq_none (hno hnil')] at hf
      cases hf
  | @acquire p stack next sent hp hfree =>
      have hopen : Open { s with holders := p :: s.holders } p := fun r hr => by
        dsimp only at hr
        rw [hp] at hr
        cases hr
      rw [(advance_record hopen).unanswered]
      refine ⟨hnodup, fun c request hc => hkeep c request hc fun stack next hrun => ?_⟩
      rw [show (Event.acquire p : Event K A).actor = p from rfl, hp] at hrun
      cases hrun
  | @send p stack request next hp =>
      have hfresh : ∀ request', (p, request') ∉ s.unanswered := by
        intro request' hmem
        obtain ⟨_, _, hrun⟩ := hflight p request' hmem
        rw [hp] at hrun
        cases hrun
      dsimp only
      refine ⟨?_, fun c request' hc => ?_⟩
      · rw [List.nodup_append]
        refine ⟨hnodup, List.nodup_singleton _, ?_⟩
        rintro x hx y hy rfl
        rw [List.mem_singleton.mp hy] at hx
        exact hfresh request hx
      · rcases List.mem_append.mp hc with hc | hc
        · refine hkeep c request' hc fun stack next hrun => ?_
          rw [show (Event.send p : Event K A).actor = p from rfl, hp] at hrun
          cases hrun
        · obtain ⟨rfl, rfl⟩ := Prod.mk.inj (List.mem_singleton.mp hc)
          exact ⟨stack, next, by simp⟩
  | @answer p stack request next a hp =>
      have hopen : Open { s with
          unanswered := s.unanswered.erase (p, request)
          answers := s.answers ++ [(p, request, a)] } p := fun r hr => by
        dsimp only at hr
        rw [hp] at hr
        cases hr
      rw [(advance_record hopen).unanswered]
      dsimp only
      refine ⟨hnodup.erase _, fun c request' hc => ?_⟩
      have hmem : (c, request') ∈ s.unanswered := List.mem_of_mem_erase hc
      obtain ⟨stack', next', hrun⟩ := hflight c request' hmem
      have hcp : c ≠ p := by
        rintro rfl
        rw [hp] at hrun
        cases hrun
        exact hnodup.not_mem_erase hc
      exact ⟨stack', next', by rw [hsame c hcp, hrun]⟩

theorem reachable_awaitInv (hwf : WellFormed sys rank capped) {s : State K R A}
    (h : Reachable (step sys) (initial sys pre) s) : AwaitInv s := by
  refine h.invariant (fun _ => ⟨List.nodup_nil, by simp [initial]⟩) ?_
  intro s e s' hr hs hstep
  exact step_awaitInv (reachable_inv hwf hr) (reachable_noError hwf hr) hs hstep

/-- Until something fails, at most as many capped calls are unanswered as there are permits. -/
theorem capped_unanswered (hwf : WellFormed sys rank capped) [DecidablePred capped]
    {s : State K R A} (h : Reachable (step sys) (initial sys pre) s) (hnil : s.failures = [])
    {n : ℕ} (hcap : sys.cap = some n) :
    (s.unanswered.filter fun c => decide (capped c.2)).length ≤ n := by
  obtain ⟨hnodup, hflight⟩ := reachable_awaitInv hwf h hnil
  have hmem : ∀ c ∈ s.unanswered.filter fun c => decide (capped c.2),
      InFlight s c.1 c.2 ∧ capped c.2 := by
    intro c hc
    rw [List.mem_filter] at hc
    exact ⟨hflight c.1 c.2 hc.1, by simpa using hc.2⟩
  rw [← List.length_map (f := Prod.fst)]
  apply capped_inFlight (reachable_inv hwf h) hcap
  · -- a cell has one call in flight
    refine (hnodup.filter _).map_on ?_
    rintro ⟨k, r⟩ hx ⟨k', r'⟩ hy rfl
    obtain ⟨_, _, h1⟩ := (hmem _ hx).1
    obtain ⟨_, _, h2⟩ := (hmem _ hy).1
    dsimp only at h1 h2
    rw [h1] at h2
    cases h2
    rfl
  · intro k hk
    obtain ⟨c, hc, rfl⟩ := List.mem_map.mp hk
    exact ⟨c.2, hmem c hc⟩

end calm

end Fanout
