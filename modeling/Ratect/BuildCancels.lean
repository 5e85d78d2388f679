import Ratect.Strings
import Ratect.Loop
import Ratect.Transition

/-! # Cancelling abandoned builds

`resolve_image` for a container that is built, `start_cancelling_abandoned_builds` and
`report_build_cancels` (`engine.rs`).  A call of `resolve_image` may be dropped wherever it awaits
something: the memo cell, a permit, the build, a tag.  What was dropped while it built is still in
`in_flight_builds`, and nothing else is (`Account`), so the cancels at the end of an execution go to
the builds that were issued and have not answered.

The answers are read through `join_all`, and a handle that was read must not be polled again.  Where
the escalation ends the wait after one answer was read and before the last, `now_or_never` polls it
again, and the warnings are not posted: they are exact if and only if that is not so
(`abandoned_builds_cancelled_iff`). -/

namespace Ratect.Builds

/-! ### Builds -/

/-- What building a container's image takes from its configuration: the refusal of a check before
the build, and the extra tags. -/
structure BuildPlan where
  refused : Option String
  extraTags : List Text

/-- What a call of `resolve_image` awaits. -/
inductive Phase where
  | cell
  | permit
  | building (buildId : Text)
  | tagging (imageId : Text) (left : List Text) (refused : List String)
deriving DecidableEq

/-- A call, for a container with `build_directory`. -/
structure Call where
  container : Text
  phase : Phase
deriving DecidableEq

/-- The memo cell of a container: empty, being filled by a call, or filled. -/
inductive Cell where
  | empty
  | initialising (call : ℕ)
  | filled (outcome : Except String Text)

/-- A build ID and the container whose image it builds. -/
structure Build where
  buildId : Text
  container : Text
deriving DecidableEq

/-- The engine: `built_images`, the calls of the current execution, `in_flight_builds`, and what has
happened so far: the builds issued, the IDs answered, and the builds cancelled. -/
structure Engine where
  builtImages : Text → Cell
  calls : ℕ → Option Call
  inFlight : List Build
  issued : List Build
  answered : List Text
  cancelled : List Build

def Engine.new : Engine := ⟨fun _ => .empty, fun _ => none, [], [], [], []⟩

/-- What can happen: a call starts, takes an empty cell, is given a permit, or gets an answer from
Docker; a call is dropped; and an execution ends, with cleanup or without, every call of it gone. -/
inductive Event where
  | start (call : ℕ) (container : Text)
  | initialise (call : ℕ)
  | permit (call : ℕ) (buildId : Text)
  | built (call : ℕ) (result : Except String Text)
  | tagged (call : ℕ) (result : Except String Unit)
  | drop (call : ℕ)
  | endExecution (cleanup : Bool)

/-- The cell gets its outcome, and every call for it returns. -/
def Engine.fill (engine : Engine) (container : Text) (outcome : Except String Text) : Engine :=
  let context := s!"Failed to build the image for container '{String.ofList container}'"
  { engine with
    builtImages :=
      Function.update engine.builtImages container (.filled (outcome.withContext context))
    calls := fun call => (engine.calls call).filter fun c => c.container ≠ container }

/-- A call goes on to await something else. -/
def Engine.await (engine : Engine) (call : ℕ) (container : Text) (phase : Phase) : Engine :=
  { engine with calls := Function.update engine.calls call (some ⟨container, phase⟩) }

/-- The builds still in flight, by container: those that `start_cancelling_abandoned_builds` sends a
cancel for. -/
def Engine.abandoned (engine : Engine) : List Build :=
  engine.inFlight.mergeSort fun a b => decide (a.container ≤ b.container)

/-- The map is taken and a cancel sent for each, whether there is cleanup or not. -/
def Engine.startCancellingAbandonedBuilds (engine : Engine) : Engine :=
  { engine with inFlight := [], cancelled := engine.cancelled ++ engine.abandoned }

/-- What is left to do after a build: the extra tags, one after the other, or the outcome. -/
def Engine.afterTag (engine : Engine) (call : ℕ) (container imageId : Text) (left : List Text)
    (refused : List String) : Engine :=
  if left ≠ [] then engine.await call container (.tagging imageId left refused)
  else if refused ≠ [] then
    engine.fill container (.error ("The image was built, but applying its tags failed:\n  " ++
      "\n  ".intercalate refused))
  else engine.fill container (.ok imageId)

/-- One event; a build ID is drawn once. -/
def step (plans : Text → BuildPlan) (engine : Engine) : Event → Option Engine
  | .start call container =>
      match engine.calls call, engine.builtImages container with
      | none, .filled _ => some engine
      | none, _ => some (engine.await call container .cell)
      | some _, _ => none
  | .initialise call =>
      match engine.calls call with
      | some ⟨container, .cell⟩ =>
          match engine.builtImages container, (plans container).refused with
          | .empty, some reason => some (engine.fill container (.error reason))
          | .empty, none =>
              some { engine.await call container .permit with
                builtImages := Function.update engine.builtImages container (.initialising call) }
          | _, _ => none
      | _ => none
  | .permit call buildId =>
      match engine.calls call with
      | some ⟨container, .permit⟩ =>
          if buildId ∈ engine.issued.map Build.buildId then none
          else
            some { engine.await call container (.building buildId) with
              inFlight := engine.inFlight ++ [⟨buildId, container⟩]
              issued := engine.issued ++ [⟨buildId, container⟩] }
      | _ => none
  | .built call result =>
      match engine.calls call with
      | some ⟨container, .building buildId⟩ =>
          let engine := { engine with
            inFlight := engine.inFlight.filter fun build => build.buildId ≠ buildId
            answered := engine.answered ++ [buildId] }
          match result with
          | .error e => some (engine.fill container (.error e))
          | .ok imageId =>
              some (engine.afterTag call container imageId (plans container).extraTags [])
      | _ => none
  | .tagged call result =>
      match engine.calls call with
      | some ⟨container, .tagging imageId (_ :: left) refused⟩ =>
          match result with
          | .error e => some (engine.afterTag call container imageId left (refused ++ [e]))
          | .ok () => some (engine.afterTag call container imageId left refused)
      | _ => none
  | .drop call =>
      match engine.calls call with
      | some ⟨container, phase⟩ =>
          some { engine with
            calls := Function.update engine.calls call none
            builtImages :=
              if phase = .cell then engine.builtImages
              else Function.update engine.builtImages container .empty }
      | none => none
  | .endExecution _ =>
      some { engine.startCancellingAbandonedBuilds with
        calls := fun _ => none
        builtImages := fun container =>
          match engine.builtImages container with
          | .filled outcome => .filled outcome
          | _ => .empty }

/-! ### The answers to the cancels -/

/-- What a cancel's task comes to. -/
inductive CancelAnswer where
  | confirmed
  | refused (error : String)
  | elapsed
  | failed (error : String)
deriving DecidableEq

/-- A cancel that was sent, what its task comes to, and when; the timeout bounds that. -/
structure SentCancel where
  container : Text
  answersAt : ℕ
  answer : CancelAnswer
deriving DecidableEq

/-- A `JoinHandle`, and whether its output has been read. -/
structure Handle where
  cancel : SentCancel
  read : Bool

/-- A poll at some time: pending, or the output, which is read.  Polled again after that, a handle
panics. -/
def Handle.poll (time : ℕ) (handle : Handle) : Option (Handle × Option CancelAnswer) :=
  if handle.cancel.answersAt ≤ time then
    if handle.read then none else some ({ handle with read := true }, some handle.cancel.answer)
  else some (handle, none)

/-- A part of `join_all`: a handle that has answered is kept with its answer and polled no more. -/
def pollPart (time : ℕ) (part : Handle × Option CancelAnswer) :
    Option (Handle × Option CancelAnswer) :=
  if part.2.isSome then some part else part.1.poll time

/-- `until_interrupted` of `join_all`, round after round: the answers first, and then the rung,
ready from a round on.  It ends in a round with every answer or with none. -/
def awaitAnswers (rung : Option ℕ) : ℕ → ℕ → List (Handle × Option CancelAnswer) →
    Option (ℕ × List Handle × Option (List CancelAnswer))
  | 0, _, _ => none
  | fuel + 1, round, parts => do
      let parts ← parts.mapM (pollPart (2 * round))
      match parts.mapM Prod.snd with
      | some answers => some (round, parts.map Prod.fst, some answers)
      | none =>
          if rung.any (· ≤ round) then some (round, parts.map Prod.fst, none)
          else awaitAnswers rung fuel (round + 1) parts

/-- The reason for a warning, unless the cancel was confirmed. -/
def unconfirmed : Option CancelAnswer → Option String
  | some .confirmed => none
  | some (.refused error) => some error
  | some .elapsed => some "the Docker daemon didn't answer within 2 seconds"
  | some (.failed error) => some error
  | none => some "cleanup stopped waiting for the Docker daemon's answer"

/-- A warning, by the container that it names. -/
structure Warning where
  container : Text
  message : String
deriving DecidableEq

def couldntCancel (cancel : SentCancel) (answer : Option CancelAnswer) : Option Warning :=
  (unconfirmed answer).map fun reason =>
    ⟨cancel.container, s!"Couldn't cancel the image build for '{String.ofList cancel.container}', so it may still be " ++
      s!"running in the Docker daemon: {reason}"⟩

/-- So many rounds suffice: every cancel answers. -/
def rounds (cancels : List SentCancel) : ℕ := (cancels.map SentCancel.answersAt).sum + 1

/-- `report_build_cancels`: the warnings, or a panic. -/
def reportBuildCancels (rung : Option ℕ) (cancels : List SentCancel) : Option (List Warning) :=
  if cancels = [] then some []
  else do
    let (round, handles, answers) ←
      awaitAnswers rung (rounds cancels) 0 (cancels.map fun c => (⟨c, false⟩, none))
    let answers ←
      match answers with
      | some answers => some (answers.map some)
      | none => handles.mapM fun handle => (handle.poll (2 * round + 1)).map Prod.snd
    some ((cancels.zip answers).filterMap fun (cancel, answer) => couldntCancel cancel answer)

/-! ### What is kept of the builds -/

/-- `in_flight_builds` holds the builds that were issued and neither answered nor cancelled, among
them every build that a call awaits. -/
structure Account (engine : Engine) : Prop where
  inFlight : ∀ build, build ∈ engine.inFlight ↔
    build ∈ engine.issued ∧ build.buildId ∉ engine.answered ∧ build ∉ engine.cancelled
  issued : (engine.issued.map Build.buildId).Nodup
  once : (engine.inFlight.map Build.buildId).Nodup
  answered : ∀ buildId ∈ engine.answered, buildId ∈ engine.issued.map Build.buildId
  cancelled : ∀ build ∈ engine.cancelled, build ∈ engine.issued ∧ build.buildId ∉ engine.answered
  cancelledOnce : (engine.cancelled.map Build.buildId).Nodup
  building : ∀ call container buildId, engine.calls call = some ⟨container, .building buildId⟩ →
    ⟨buildId, container⟩ ∈ engine.inFlight
  apart : ∀ call call' container container' buildId,
    engine.calls call = some ⟨container, .building buildId⟩ →
    engine.calls call' = some ⟨container', .building buildId⟩ → call = call'

/-- Of the builds nothing changes, and no call begins to build. -/
structure Quiet (engine engine' : Engine) : Prop where
  inFlight : engine'.inFlight = engine.inFlight
  issued : engine'.issued = engine.issued
  answered : engine'.answered = engine.answered
  cancelled : engine'.cancelled = engine.cancelled
  building : ∀ call container buildId, engine'.calls call = some ⟨container, .building buildId⟩ →
    engine.calls call = some ⟨container, .building buildId⟩

theorem Account.quiet {engine engine' : Engine} (h : Account engine)
    (hquiet : Quiet engine engine') :
    Account engine' where
  inFlight build := by
    rw [hquiet.inFlight, hquiet.issued, hquiet.answered, hquiet.cancelled, h.inFlight]
  issued := by
    rw [hquiet.issued]
    exact h.issued
  once := by
    rw [hquiet.inFlight]
    exact h.once
  answered buildId := by
    rw [hquiet.answered, hquiet.issued]
    exact h.answered buildId
  cancelled build := by
    rw [hquiet.cancelled, hquiet.issued, hquiet.answered]
    exact h.cancelled build
  cancelledOnce := by
    rw [hquiet.cancelled]
    exact h.cancelledOnce
  building call container buildId hcall := by
    rw [hquiet.inFlight]
    exact h.building call container buildId (hquiet.building _ _ _ hcall)
  apart call call' container container' buildId hcall hcall' :=
    h.apart _ _ _ _ _ (hquiet.building _ _ _ hcall) (hquiet.building _ _ _ hcall')

theorem await_calls (engine : Engine) (call call' : ℕ) (container : Text) (phase : Phase) :
    (engine.await call container phase).calls call' =
      if call' = call then some ⟨container, phase⟩ else engine.calls call' :=
  Function.update_apply _ _ _ _

theorem quiet_fill (engine : Engine) (container : Text) (outcome : Except String Text) :
    Quiet engine (engine.fill container outcome) where
  inFlight := rfl
  issued := rfl
  answered := rfl
  cancelled := rfl
  building _ _ _ hcall := (Option.filter_eq_some_iff.mp hcall).1

theorem quiet_await (engine : Engine) (call : ℕ) (container : Text) {phase : Phase}
    (hphase : ∀ buildId, phase ≠ .building buildId) :
    Quiet engine (engine.await call container phase) where
  inFlight := rfl
  issued := rfl
  answered := rfl
  cancelled := rfl
  building call' container' buildId hcall := by
    rw [await_calls] at hcall
    split at hcall
    · cases hcall
      exact absurd rfl (hphase buildId)
    · exact hcall

theorem quiet_afterTag (engine : Engine) (call : ℕ) (container imageId : Text) (left : List Text)
    (refused : List String) :
    Quiet engine (engine.afterTag call container imageId left refused) := by
  unfold Engine.afterTag
  split
  · exact quiet_await _ _ _ fun _ => Phase.noConfusion
  · split
    · exact quiet_fill _ _ _
    · exact quiet_fill _ _ _

/-- An ID that is new is recorded with its call. -/
theorem Account.permit {engine : Engine} (h : Account engine) {call : ℕ} {container buildId : Text}
    (hcall : engine.calls call = some ⟨container, .permit⟩)
    (hnew : buildId ∉ engine.issued.map Build.buildId) :
    Account { engine.await call container (.building buildId) with
      inFlight := engine.inFlight ++ [⟨buildId, container⟩]
      issued := engine.issued ++ [⟨buildId, container⟩] } := by
  have hnewInFlight : buildId ∉ engine.inFlight.map Build.buildId := by
    intro hmem
    obtain ⟨build, hbuild, heq⟩ := List.mem_map.mp hmem
    exact hnew (List.mem_map.mpr ⟨build, ((h.inFlight build).mp hbuild).1, heq⟩)
  have hnewAnswered : buildId ∉ engine.answered := fun hmem => hnew (h.answered buildId hmem)
  have hnewCancelled : ∀ container, ⟨buildId, container⟩ ∉ engine.cancelled := by
    intro container' hmem
    exact hnew (List.mem_map.mpr ⟨_, (h.cancelled _ hmem).1, rfl⟩)
  have hbuilding : ∀ call' container' buildId',
      (engine.await call container (.building buildId)).calls call' =
        some ⟨container', .building buildId'⟩ →
        call' = call ∧ container' = container ∧ buildId' = buildId ∨
          call' ≠ call ∧ engine.calls call' = some ⟨container', .building buildId'⟩ := by
    intro call' container' buildId' hcall'
    rw [await_calls] at hcall'
    split at hcall'
    · next heq =>
        cases hcall'
        exact Or.inl ⟨heq, rfl, rfl⟩
    · next heq => exact Or.inr ⟨heq, hcall'⟩
  have hother : ∀ call' container', engine.calls call' ≠ some ⟨container', .building buildId⟩ := by
    intro call' container' hcall'
    exact hnewInFlight (List.mem_map.mpr ⟨_, h.building _ _ _ hcall', rfl⟩)
  constructor
  case inFlight =>
    intro build
    dsimp only [Engine.await]
    rw [List.mem_append, List.mem_append, List.mem_singleton, h.inFlight]
    constructor
    · rintro (⟨hissued, hrest⟩ | rfl)
      · exact ⟨Or.inl hissued, hrest⟩
      · exact ⟨Or.inr rfl, hnewAnswered, hnewCancelled container⟩
    · rintro ⟨hissued | rfl, hrest⟩
      · exact Or.inl ⟨hissued, hrest⟩
      · exact Or.inr rfl
  case issued =>
    dsimp only
    rw [List.map_append, List.map_singleton]
    exact List.nodup_append.mpr ⟨h.issued, List.nodup_singleton _, by
      rintro a ha b hb rfl
      rw [List.mem_singleton.mp hb] at ha
      exact hnew ha⟩
  case once =>
    dsimp only
    rw [List.map_append, List.map_singleton]
    exact List.nodup_append.mpr ⟨h.once, List.nodup_singleton _, by
      rintro a ha b hb rfl
      rw [List.mem_singleton.mp hb] at ha
      exact hnewInFlight ha⟩
  case answered =>
    intro id hid
    dsimp only
    rw [List.map_append]
    exact List.mem_append_left _ (h.answered id hid)
  case cancelled =>
    intro build hbuild
    obtain ⟨hissued, hanswered⟩ := h.cancelled build hbuild
    exact ⟨List.mem_append_left _ hissued, hanswered⟩
  case cancelledOnce => exact h.cancelledOnce
  case building =>
    intro call' container' buildId' hcall'
    rcases hbuilding _ _ _ hcall' with ⟨-, rfl, rfl⟩ | ⟨-, hbefore⟩
    · exact List.mem_append_right _ (List.mem_singleton_self _)
    · exact List.mem_append_left _ (h.building _ _ _ hbefore)
  case apart =>
    intro call₁ call₂ container₁ container₂ id h₁ h₂
    rcases hbuilding _ _ _ h₁ with ⟨rfl, -, rfl⟩ | ⟨-, hbefore₁⟩
    · rcases hbuilding _ _ _ h₂ with ⟨rfl, -, -⟩ | ⟨-, hbefore₂⟩
      · rfl
      · exact absurd hbefore₂ (hother _ _)
    · rcases hbuilding _ _ _ h₂ with ⟨-, -, rfl⟩ | ⟨-, hbefore₂⟩
      · exact absurd hbefore₁ (hother _ _)
      · exact h.apart _ _ _ _ _ hbefore₁ hbefore₂

/-- A build that answers is taken out by its ID, and the call goes on. -/
theorem Account.built {engine engine' : Engine} (h : Account engine) {call : ℕ}
    {container buildId : Text}
    (hcall : engine.calls call = some ⟨container, .building buildId⟩)
    (hquiet : Quiet { engine with
      inFlight := engine.inFlight.filter fun build => build.buildId ≠ buildId
      answered := engine.answered ++ [buildId] } engine')
    (hdone : ∀ container', engine'.calls call ≠ some ⟨container', .building buildId⟩) :
      Account engine' := by
  have hmem := h.building _ _ _ hcall
  obtain ⟨hissued, hunanswered, huncancelled⟩ := (h.inFlight _).mp hmem
  have hsame : ∀ build ∈ engine.issued, build.buildId = buildId → build = ⟨buildId, container⟩ :=
    fun build hbuild heq => List.inj_on_of_nodup_map h.issued hbuild hissued heq
  constructor
  case inFlight =>
    intro build
    rw [hquiet.inFlight, hquiet.issued, hquiet.answered, hquiet.cancelled,
      List.mem_filter, h.inFlight, decide_eq_true_eq, List.mem_append, List.mem_singleton, not_or]
    tauto
  case issued =>
    rw [hquiet.issued]
    exact h.issued
  case once =>
    rw [hquiet.inFlight]
    exact h.once.sublist (List.filter_sublist.map _)
  case answered =>
    intro id hid
    rw [hquiet.answered] at hid
    rw [hquiet.issued]
    rcases List.mem_append.mp hid with hid | hid
    · exact h.answered id hid
    · rw [List.mem_singleton.mp hid]
      exact List.mem_map.mpr ⟨_, hissued, rfl⟩
  case cancelled =>
    intro build hbuild
    rw [hquiet.cancelled] at hbuild
    rw [hquiet.issued, hquiet.answered]
    obtain ⟨hbuildIssued, hanswered⟩ := h.cancelled build hbuild
    refine ⟨hbuildIssued, ?_⟩
    rw [List.mem_append, List.mem_singleton, not_or]
    refine ⟨hanswered, ?_⟩
    intro heq
    rw [hsame build hbuildIssued heq] at hbuild
    exact huncancelled hbuild
  case cancelledOnce =>
    rw [hquiet.cancelled]
    exact h.cancelledOnce
  case building =>
    intro call' container' buildId' hcall'
    have hbefore : engine.calls call' = some ⟨container', .building buildId'⟩ :=
      hquiet.building _ _ _ hcall'
    rw [hquiet.inFlight, List.mem_filter, decide_eq_true_eq]
    refine ⟨h.building _ _ _ hbefore, ?_⟩
    rintro rfl
    obtain rfl := h.apart _ _ _ _ _ hbefore hcall
    exact hdone _ hcall'
  case apart =>
    intro call₁ call₂ container₁ container₂ id h₁ h₂
    exact h.apart _ _ _ _ _ (hquiet.building _ _ _ h₁) (hquiet.building _ _ _ h₂)

theorem mem_abandoned {engine : Engine} {build : Build} :
    build ∈ engine.abandoned ↔ build ∈ engine.inFlight :=
  List.mem_mergeSort

theorem abandoned_nodup {engine : Engine} (h : Account engine) :
    (engine.abandoned.map Build.buildId).Nodup :=
  ((List.mergeSort_perm _ _).map _).nodup_iff.mpr h.once

/-- At the end of an execution, what is in flight is cancelled. -/
theorem Account.endExecution {engine : Engine} (h : Account engine) (builtImages : Text → Cell) :
    Account { engine.startCancellingAbandonedBuilds with
      calls := fun _ => none, builtImages := builtImages } := by
  unfold Engine.startCancellingAbandonedBuilds
  constructor
  case inFlight =>
    intro build
    dsimp only
    constructor
    · intro hmem
      exact absurd hmem List.not_mem_nil
    · rintro ⟨hissued, hanswered, hcancelled⟩
      rw [List.mem_append, not_or, mem_abandoned, h.inFlight] at hcancelled
      exact absurd ⟨hissued, hanswered, hcancelled.1⟩ hcancelled.2
  case issued => exact h.issued
  case once => exact List.nodup_nil
  case answered => exact h.answered
  case cancelled =>
    intro build hbuild
    rcases List.mem_append.mp hbuild with hbuild | hbuild
    · exact h.cancelled build hbuild
    · obtain ⟨hissued, hanswered, -⟩ := (h.inFlight build).mp (mem_abandoned.mp hbuild)
      exact ⟨hissued, hanswered⟩
  case cancelledOnce =>
    dsimp only
    rw [List.map_append]
    refine List.nodup_append.mpr ⟨h.cancelledOnce, abandoned_nodup h, ?_⟩
    rintro a ha b hb rfl
    obtain ⟨build, hbuild, hbuildId⟩ := List.mem_map.mp ha
    obtain ⟨build', hbuild', hbuildId'⟩ := List.mem_map.mp hb
    obtain ⟨hissued', -, huncancelled⟩ := (h.inFlight build').mp (mem_abandoned.mp hbuild')
    have heq : build' = build :=
      List.inj_on_of_nodup_map h.issued hissued' (h.cancelled build hbuild).1
        (hbuildId'.trans hbuildId.symm)
    exact huncancelled (heq ▸ hbuild)
  case building =>
    intro call container buildId hcall
    cases hcall
  case apart =>
    intro call call' container container' buildId hcall
    cases hcall

theorem account_new : Account Engine.new := by
  unfold Engine.new
  constructor <;> simp

/-- A call whose cell is filled awaits nothing more. -/
theorem fill_done {engine : Engine} {call : ℕ} {container : Text} {phase : Phase}
    (hcall : engine.calls call = some ⟨container, phase⟩) {outcome : Except String Text}
    {buildId : Text} (container' : Text) :
    (engine.fill container outcome).calls call ≠ some ⟨container', .building buildId⟩ := by
  intro hcall'
  obtain ⟨hbefore, hkept⟩ := Option.filter_eq_some_iff.mp hcall'
  rw [hcall] at hbefore
  cases hbefore
  simp at hkept

theorem afterTag_done {engine : Engine} {call : ℕ} {container : Text} {phase : Phase}
    (hcall : engine.calls call = some ⟨container, phase⟩) {imageId buildId : Text}
    {left : List Text} {refused : List String} (container' : Text) :
    (engine.afterTag call container imageId left refused).calls call ≠
      some ⟨container', .building buildId⟩ := by
  unfold Engine.afterTag
  split
  · rw [await_calls, if_pos rfl]
    intro hsame
    cases hsame
  · split
    · exact fill_done hcall container'
    · exact fill_done hcall container'

/-- Every event keeps the account. -/
theorem step_account {plans : Text → BuildPlan} {engine engine' : Engine} {event : Event}
    (h : Account engine) (hstep : step plans engine event = some engine') : Account engine' := by
  cases event with
  | start call container =>
      simp only [step] at hstep
      split at hstep
      · cases hstep
        exact h
      · cases hstep
        exact h.quiet (quiet_await _ _ _ fun _ => Phase.noConfusion)
      · cases hstep
  | initialise call =>
      simp only [step] at hstep
      split at hstep
      · next container hcall =>
        split at hstep
        · cases hstep
          exact h.quiet (quiet_fill _ _ _)
        · cases hstep
          have hquiet := @quiet_await engine call container .permit fun _ => Phase.noConfusion
          exact h.quiet ⟨hquiet.inFlight, hquiet.issued, hquiet.answered,
            hquiet.cancelled, hquiet.building⟩
        · cases hstep
      · cases hstep
  | permit call buildId =>
      simp only [step] at hstep
      split at hstep
      · next container hcall =>
          split at hstep
          · cases hstep
          · next hnew =>
              cases hstep
              exact h.permit hcall hnew
      · cases hstep
  | built call result =>
      simp only [step] at hstep
      split at hstep
      · next container buildId hcall =>
          cases result with
          | error e =>
              cases hstep
              exact h.built hcall (quiet_fill _ _ _) fun container' =>
                fill_done (by exact hcall) container'
          | ok imageId =>
              cases hstep
              exact h.built hcall (quiet_afterTag _ _ _ _ _ _) fun container' =>
                afterTag_done (by exact hcall) container'
      · cases hstep
  | tagged call result =>
      simp only [step] at hstep
      split at hstep
      · cases result with
        | error e =>
            cases hstep
            exact h.quiet (quiet_afterTag _ _ _ _ _ _)
        | ok done =>
            cases hstep
            exact h.quiet (quiet_afterTag _ _ _ _ _ _)
      · cases hstep
  | drop call =>
      simp only [step] at hstep
      split at hstep
      · cases hstep
        refine h.quiet ⟨rfl, rfl, rfl, rfl, ?_⟩
        intro call' container' buildId hcall'
        dsimp only at hcall'
        rw [Function.update_apply] at hcall'
        split at hcall'
        · cases hcall'
        · exact hcall'
      · cases hstep
  | endExecution cleanup =>
      simp only [step] at hstep
      cases hstep
      exact h.endExecution _

theorem reachable_account {plans : Text → BuildPlan} {engine : Engine}
    (h : Transition.Reachable (step plans) Engine.new engine) : Account engine :=
  h.invariant account_new fun _ _ _ _ haccount hstep => step_account haccount hstep

/-! ### The wait for the answers -/

/-- The round in which the wait ends: the first where every cancel has answered or the rung is
ready. -/
def EndsIn (rung : Option ℕ) (cancels : List SentCancel) (round : ℕ) : Prop :=
  ((∀ c ∈ cancels, c.answersAt ≤ 2 * round) ∨ rung.any (· ≤ round) = true) ∧
    ∀ earlier < round,
      ¬ ((∀ c ∈ cancels, c.answersAt ≤ 2 * earlier) ∨ rung.any (· ≤ earlier) = true)

/-- In its last round, some answers are there and some are not. -/
def AnsweredInPart (cancels : List SentCancel) (round : ℕ) : Prop :=
  (∃ c ∈ cancels, c.answersAt ≤ 2 * round) ∧ ∃ c ∈ cancels, 2 * round < c.answersAt

/-- A cancel was confirmed when the wait ended, late in its last round. -/
def SentCancel.ConfirmedIn (cancel : SentCancel) (round : ℕ) : Prop :=
  cancel.answer = .confirmed ∧ cancel.answersAt ≤ 2 * round + 1

instance (cancel : SentCancel) (round : ℕ) : Decidable (cancel.ConfirmedIn round) :=
  inferInstanceAs (Decidable (_ ∧ _))

/-- The warnings are posted, for the cancels that were not confirmed and no others. -/
def WarnsExactly (rung : Option ℕ) (cancels : List SentCancel) (round : ℕ) : Prop :=
  ∃ warnings, reportBuildCancels rung cancels = some warnings ∧
    warnings.map Warning.container =
      (cancels.filter fun c => ¬ c.ConfirmedIn round).map SentCancel.container

section wait

variable {rung : Option ℕ} {cancels : List SentCancel}

/-- A handle before a round: its answer is kept once a round has read it. -/
def partBefore (round : ℕ) (cancel : SentCancel) : Handle × Option CancelAnswer :=
  if cancel.answersAt + 2 ≤ 2 * round then (⟨cancel, true⟩, some cancel.answer)
  else (⟨cancel, false⟩, none)

theorem partBefore_fst (round : ℕ) (cancel : SentCancel) :
    (partBefore round cancel).1 = ⟨cancel, decide (cancel.answersAt + 2 ≤ 2 * round)⟩ := by
  unfold partBefore
  split
  · next h => rw [decide_eq_true h]
  · next h => rw [decide_eq_false h]

theorem pollPart_partBefore (round : ℕ) (cancel : SentCancel) :
    pollPart (2 * round) (partBefore round cancel) = some (partBefore (round + 1) cancel) := by
  unfold partBefore pollPart Handle.poll
  by_cases hbefore : cancel.answersAt + 2 ≤ 2 * round
  · have hafter : cancel.answersAt + 2 ≤ 2 * (round + 1) := by omega
    rw [if_pos hbefore, if_pos hafter]
    rfl
  · rw [if_neg hbefore, if_neg (by simp)]
    by_cases hnow : cancel.answersAt ≤ 2 * round
    · rw [if_pos hnow, if_neg (by simp), if_pos (by omega)]
    · rw [if_neg hnow, if_neg (by omega)]

theorem mapM_answers (round : ℕ) :
    (cancels.map (partBefore (round + 1))).mapM Prod.snd =
      if ∀ c ∈ cancels, c.answersAt ≤ 2 * round then
        some (cancels.map SentCancel.answer) else none := by
  split
  · next hall =>
      rw [Option.mapM_eq_some_map (g := fun part => part.1.cancel.answer), List.map_map]
      · congr 1
        apply List.map_congr_left
        intro c _
        rw [Function.comp_apply, partBefore_fst]
      · intro part hpart
        obtain ⟨c, hc, rfl⟩ := List.mem_map.mp hpart
        have hle := hall c hc
        unfold partBefore
        rw [if_pos (by omega)]
  · next hnot =>
      push Not at hnot
      obtain ⟨c, hc, hlate⟩ := hnot
      apply Option.mapM_eq_none (List.mem_map_of_mem hc)
      unfold partBefore
      rw [if_neg (by omega)]

/-- The wait ends in its round, with every answer or with none. -/
theorem awaitAnswers_eq {fuel round last : ℕ} (hlast : EndsIn rung cancels last)
    (hround : round ≤ last) (hfuel : last < round + fuel) :
    awaitAnswers rung fuel round (cancels.map (partBefore round)) =
      some (last, (cancels.map (partBefore (last + 1))).map Prod.fst,
        if ∀ c ∈ cancels, c.answersAt ≤ 2 * last then
          some (cancels.map SentCancel.answer) else none) := by
  induction fuel generalizing round with
  | zero => omega
  | succ fuel ih =>
      have hpoll : (cancels.map (partBefore round)).mapM (pollPart (2 * round)) =
          some (cancels.map (partBefore (round + 1))) := by
        rw [Option.mapM_eq_some_map (g := fun part => partBefore (round + 1) part.1.cancel),
          List.map_map]
        · congr 1
          apply List.map_congr_left
          intro c _
          rw [Function.comp_apply, partBefore_fst]
        · intro part hpart
          obtain ⟨c, -, rfl⟩ := List.mem_map.mp hpart
          rw [pollPart_partBefore, partBefore_fst]
      rw [awaitAnswers, hpoll, Option.bind_eq_bind, Option.bind_some, mapM_answers]
      by_cases hall : ∀ c ∈ cancels, c.answersAt ≤ 2 * round
      · have heq : round = last := by
          by_contra hne
          exact hlast.2 round (by omega) (Or.inl hall)
        subst heq
        rw [if_pos hall]
      · rw [if_neg hall]
        dsimp only
        by_cases hrung : rung.any (· ≤ round) = true
        · have heq : round = last := by
            by_contra hne
            exact hlast.2 round (by omega) (Or.inr hrung)
          subst heq
          rw [if_pos hrung, if_neg hall]
        · rw [if_neg hrung]
          have hne : round ≠ last := by
            rintro rfl
            exact hlast.1.elim hall hrung
          exact ih (by omega) (by omega)

theorem le_sum_answersAt {c : SentCancel} (hc : c ∈ cancels) :
    c.answersAt ≤ (cancels.map SentCancel.answersAt).sum :=
  List.single_le_sum (fun _ _ => Nat.zero_le _) _ (List.mem_map_of_mem hc)

theorem EndsIn.lt_rounds {last : ℕ} (h : EndsIn rung cancels last) : last < rounds cancels := by
  by_contra hle
  unfold rounds at hle
  apply h.2 (cancels.map SentCancel.answersAt).sum (by omega)
  left
  intro c hc
  have := le_sum_answersAt hc
  omega

/-- The wait does end. -/
theorem exists_endsIn (rung : Option ℕ) (cancels : List SentCancel) :
    ∃ last, EndsIn rung cancels last := by
  have hends : ∃ round, (∀ c ∈ cancels, c.answersAt ≤ 2 * round) ∨ rung.any (· ≤ round) = true := by
    refine ⟨(cancels.map SentCancel.answersAt).sum, Or.inl ?_⟩
    intro c hc
    have := le_sum_answersAt hc
    omega
  classical
  exact ⟨Nat.find hends, Nat.find_spec hends, fun earlier hearlier => Nat.find_min hends hearlier⟩

/-- What is known of a cancel's answer at some time. -/
def SentCancel.answerBy (time : ℕ) (cancel : SentCancel) : Option CancelAnswer :=
  if cancel.answersAt ≤ time then some cancel.answer else none

theorem zip_filterMap (answers : SentCancel → Option CancelAnswer) (cancels : List SentCancel) :
    (cancels.zip (cancels.map answers)).filterMap
    (fun (cancel, answer) => couldntCancel cancel answer) =
      cancels.filterMap fun c => couldntCancel c (answers c) := by
  induction cancels with
  | nil => rfl
  | cons c cancels ih =>
      rw [List.map_cons, List.zip_cons_cons, List.filterMap_cons, List.filterMap_cons, ih]

/-- The report: a handle that was read is polled again exactly if there is another that was not. -/
theorem reportBuildCancels_eq {last : ℕ} (hlast : EndsIn rung cancels last) :
    (AnsweredInPart cancels last → reportBuildCancels rung cancels = none) ∧
      (¬ AnsweredInPart cancels last → reportBuildCancels rung cancels =
        some (cancels.filterMap fun c => couldntCancel c (c.answerBy (2 * last + 1)))) := by
  by_cases hempty : cancels = []
  · subst hempty
    refine ⟨?_, fun _ => rfl⟩
    rintro ⟨⟨c, hc, -⟩, -⟩
    cases hc
  · have hstart : (cancels.map fun c => ((⟨c, false⟩, none) : Handle × Option CancelAnswer)) =
        cancels.map (partBefore 0) := by
      apply List.map_congr_left
      intro c _
      unfold partBefore
      rw [if_neg (by omega)]
    have hwait := awaitAnswers_eq hlast (Nat.zero_le last)
      (by simpa using hlast.lt_rounds : last < 0 + rounds cancels)
    unfold reportBuildCancels
    rw [if_neg hempty, hstart, hwait, Option.bind_eq_bind, Option.bind_some]
    dsimp only
    by_cases hall : ∀ c ∈ cancels, c.answersAt ≤ 2 * last
    · constructor
      · rintro ⟨-, c, hc, hlate⟩
        exact absurd (hall c hc) (not_le.mpr hlate)
      · intro _
        rw [if_pos hall]
        dsimp only
        rw [Option.bind_eq_bind, Option.bind_some, List.map_map, zip_filterMap]
        congr 1
        apply List.filterMap_congr
        intro c hc
        have hle := hall c hc
        unfold SentCancel.answerBy
        rw [if_pos (by omega)]
        rfl
    · rw [if_neg hall]
      dsimp only
      rw [List.map_map]
      push Not at hall
      obtain ⟨late, hlateMem, hlate⟩ := hall
      constructor
      · rintro ⟨⟨c, hc, hle⟩, -⟩
        have hread : ((partBefore (last + 1) c).1.poll (2 * last + 1)).map Prod.snd = none := by
          have hbefore : c.answersAt + 2 ≤ 2 * (last + 1) := by omega
          have hby : c.answersAt ≤ 2 * last + 1 := by omega
          rw [partBefore_fst, decide_eq_true hbefore, Handle.poll, if_pos hby, if_pos rfl]
          rfl
        rw [Option.mapM_eq_none (List.mem_map_of_mem hc) hread]
        rfl
      · intro hnone
        have hunread : ∀ c ∈ cancels, 2 * last < c.answersAt := by
          intro c hc
          by_contra hle
          exact hnone ⟨⟨c, hc, not_lt.mp hle⟩, late, hlateMem, hlate⟩
        rw [Option.mapM_eq_some_map (g := fun handle => handle.cancel.answerBy (2 * last + 1))]
        · rw [Option.bind_eq_bind, Option.bind_some, List.map_map, zip_filterMap]
          congr 1
          apply List.filterMap_congr
          intro c _
          rw [Function.comp_apply, Function.comp_apply, partBefore_fst]
        · intro handle hhandle
          obtain ⟨c, hc, rfl⟩ := List.mem_map.mp hhandle
          have hlt := hunread c hc
          have hbefore : ¬ c.answersAt + 2 ≤ 2 * (last + 1) := by omega
          rw [Function.comp_apply, partBefore_fst, decide_eq_false hbefore, Handle.poll,
            SentCancel.answerBy]
          dsimp only
          split <;> rfl

/-- The warnings are for the cancels that were not confirmed. -/
theorem warnings_containers (last : ℕ) :
    (cancels.filterMap fun c => couldntCancel c (c.answerBy (2 * last + 1))).map Warning.container =
      (cancels.filter fun c => ¬ c.ConfirmedIn last).map SentCancel.container := by
  induction cancels with
  | nil => rfl
  | cons c cancels ih =>
      rw [List.filterMap_cons, List.filter_cons]
      by_cases hconfirmed : c.ConfirmedIn last
      · have hnone : couldntCancel c (c.answerBy (2 * last + 1)) = none := by
          unfold couldntCancel SentCancel.answerBy
          rw [if_pos hconfirmed.2, hconfirmed.1]
          rfl
        rw [hnone, if_neg (by simpa using hconfirmed)]
        exact ih
      · have hsome : ∃ message,
            couldntCancel c (c.answerBy (2 * last + 1)) = some ⟨c.container, message⟩ := by
          unfold couldntCancel SentCancel.answerBy
          split
          · next hle =>
              cases hanswer : c.answer with
              | confirmed => exact absurd ⟨hanswer, hle⟩ hconfirmed
              | refused error => exact ⟨_, rfl⟩
              | elapsed => exact ⟨_, rfl⟩
              | failed error => exact ⟨_, rfl⟩
          · exact ⟨_, rfl⟩
        obtain ⟨message, hmessage⟩ := hsome
        rw [hmessage, if_pos (by simpa using hconfirmed), List.map_cons, List.map_cons]
        exact congrArg _ ih

theorem warnsExactly_iff {last : ℕ} (hlast : EndsIn rung cancels last) :
    WarnsExactly rung cancels last ↔ ¬ AnsweredInPart cancels last := by
  obtain ⟨hpart, hwhole⟩ := reportBuildCancels_eq hlast
  constructor
  · rintro ⟨warnings, hreport, -⟩ hanswered
    rw [hpart hanswered] at hreport
    cases hreport
  · intro hanswered
    exact ⟨_, hwhole hanswered, warnings_containers last⟩

end wait

/-! ### The end of an execution -/

/-- At the end of an execution, the cancels go to exactly the builds that were issued and have
neither answered nor been cancelled, each once; none that answered is among these or the earlier
ones; and nothing is left in flight. -/
structure CancelsExactly (engine : Engine) : Prop where
  exact : ∀ build, build ∈ engine.abandoned ↔
    build ∈ engine.issued ∧ build.buildId ∉ engine.answered ∧ build ∉ engine.cancelled
  once : ((engine.cancelled ++ engine.abandoned).map Build.buildId).Nodup
  unanswered : ∀ build ∈ engine.cancelled ++ engine.abandoned, build.buildId ∉ engine.answered
  recorded : engine.startCancellingAbandonedBuilds.cancelled = engine.cancelled ++ engine.abandoned
  empty : engine.startCancellingAbandonedBuilds.inFlight = []

theorem Account.cancelsExactly {engine : Engine} (h : Account engine) : CancelsExactly engine where
  exact build := by rw [mem_abandoned, h.inFlight]
  once := (h.endExecution fun _ => .empty).cancelledOnce
  unanswered build hbuild := ((h.endExecution fun _ => .empty).cancelled build hbuild).2
  recorded := rfl
  empty := rfl

/-- The cancels of the abandoned builds, with what comes of each. -/
def Engine.sent (engine : Engine) (answersAt : Build → ℕ)
    (answer : Build → CancelAnswer) : List SentCancel :=
  engine.abandoned.map fun build => ⟨build.container, answersAt build, answer build⟩

/-- In every state in which an execution may end, and whatever comes of the cancels, the wait ends;
and they go to exactly the abandoned builds, and the warnings name exactly the containers whose
cancel was not confirmed, if and only if it does not end after some of the answers and before the
others. -/
theorem abandoned_builds_cancelled_iff {plans : Text → BuildPlan} {engine : Engine}
    (h : Transition.Reachable (step plans) Engine.new engine) (rung : Option ℕ)
    (answersAt : Build → ℕ) (answer : Build → CancelAnswer) :
    (∃ last, EndsIn rung (engine.sent answersAt answer) last) ∧
      ∀ last, EndsIn rung (engine.sent answersAt answer) last →
        (CancelsExactly engine ∧ WarnsExactly rung (engine.sent answersAt answer) last ↔
          ¬ AnsweredInPart (engine.sent answersAt answer) last) := by
  refine ⟨exists_endsIn _ _, fun last hlast => ?_⟩
  rw [warnsExactly_iff hlast]
  exact and_iff_right (reachable_account h).cancelsExactly

/-- Two containers whose builds have no check that fails and no extra tags. -/
def noTags : Text → BuildPlan := fun _ => ⟨none, []⟩

/-- Both are built at once when a signal ends the run. -/
def twoBuilds : List Event :=
  [.start 0 ['a'], .start 1 ['b'], .initialise 0, .initialise 1, .permit 0 ['0'],
    .permit 1 ['1'], .drop 0, .drop 1]

theorem twoBuilds_abandoned : ∃ engine, Transition.Reachable (step noTags) Engine.new engine ∧
    engine.abandoned = [⟨['0'], ['a']⟩, ⟨['1'], ['b']⟩] := by
  have hrun : (Transition.run (step noTags) Engine.new twoBuilds).map Engine.inFlight =
      some [⟨['0'], ['a']⟩, ⟨['1'], ['b']⟩] := by
    rfl
  obtain ⟨engine, hreach, hinFlight⟩ := Transition.exists_reachable_of_run hrun
  refine ⟨engine, hreach, ?_⟩
  rw [Engine.abandoned, hinFlight]
  apply List.mergeSort_of_pairwise
  decide

/-- Both cancels are confirmed before the escalation. -/
theorem abandoned_builds_cancelled_both :
    ∃ engine, Transition.Reachable (step noTags) Engine.new engine ∧
    engine.abandoned = [⟨['0'], ['a']⟩, ⟨['1'], ['b']⟩] ∧ CancelsExactly engine ∧
      WarnsExactly (some 3) (engine.sent (fun _ => 2) fun _ => .confirmed) 1 := by
  obtain ⟨engine, hreach, habandoned⟩ := twoBuilds_abandoned
  have hends : EndsIn (some 3) (engine.sent (fun _ => 2) fun _ => .confirmed) 1 := by
    unfold EndsIn Engine.sent
    rw [habandoned]
    decide
  have hwhole : ¬ AnsweredInPart (engine.sent (fun _ => 2) fun _ => .confirmed) 1 := by
    unfold AnsweredInPart Engine.sent
    rw [habandoned]
    decide
  exact ⟨engine, hreach, habandoned,
    ((abandoned_builds_cancelled_iff hreach (some 3) (fun _ => 2) fun _ => .confirmed).2
      1 hends).mpr hwhole⟩

/-- One cancel is confirmed, the other is not answered yet, and a signal ends the wait: the report
panics, and the warning for `b` is not posted. -/
theorem abandoned_builds_panic : ∃ engine, Transition.Reachable (step noTags) Engine.new engine ∧
    ∃ answersAt answer, EndsIn (some 1) (engine.sent answersAt answer) 1 ∧
      reportBuildCancels (some 1) (engine.sent answersAt answer) = none ∧
      ¬ WarnsExactly (some 1) (engine.sent answersAt answer) 1 := by
  obtain ⟨engine, hreach, habandoned⟩ := twoBuilds_abandoned
  refine ⟨engine, hreach, fun build => if build.container = ['a'] then 0 else 20,
    fun _ => .confirmed, ?_, ?_, ?_⟩
  · unfold EndsIn Engine.sent
    rw [habandoned]
    decide
  · unfold Engine.sent
    rw [habandoned]
    decide
  · rintro ⟨warnings, hreport, -⟩
    unfold Engine.sent at hreport
    rw [habandoned] at hreport
    cases hreport

end Ratect.Builds
