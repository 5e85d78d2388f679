import Ratect.BuildOutput

/-! # Whose lines they are

An output is `Good` for what its steps' buffers were given when its history is in order, its numbers
are the history's and each buffer is what its actions leave.  Every operation of `push` and `finish`
goes from one good output to another without a panic (`Advances`), and what a build's lines say is
read off the history at the end (`build_output_attribution`). -/

namespace Ratect.BuildOutput

/-! ### Histories in order -/

/-- What displaying a step adds. -/
def displayEvents (digest : Text) (number : ℕ) (name : Text) : List Event :=
  .displayed digest number name :: if name = [] then [] else [.emitted digest number .header name]

/-- A history in which each step is numbered by its place, headed as it is displayed and has no text
before. -/
inductive Ordered : List Event → Prop
  | nil : Ordered []
  | display {history : List Event} {digest name : Text} : Ordered history →
      digest ∉ (displays history).map Prod.fst →
      Ordered (history ++ displayEvents digest ((displays history).length + 1) name)
  | emit {history : List Event} {digest text : Text} {number : ℕ} {origin : Origin} :
      Ordered history →
      (digest, number) ∈ displays history → origin ≠ .header →
      Ordered (history ++ [.emitted digest number origin text])

theorem displays_append (a b : List Event) : displays (a ++ b) = displays a ++ displays b :=
  List.filterMap_append

theorem displays_emitted (digest : Text) (number : ℕ) (origin : Origin) (text : Text) :
    displays [.emitted digest number origin text] = [] := rfl

theorem displays_displayEvents (digest : Text) (number : ℕ) (name : Text) :
    displays (displayEvents digest number name) = [(digest, number)] := by
  unfold displayEvents
  split
  · rfl
  · rfl

theorem logTexts_append (digest : Text) (a b : List Event) :
    logTexts digest (a ++ b) = logTexts digest a ++ logTexts digest b := List.filterMap_append

theorem logTexts_displayEvents (digest digest' : Text) (number : ℕ) (name : Text) :
    logTexts digest (displayEvents digest' number name) = [] := by
  unfold displayEvents
  split
  · rfl
  · rfl

theorem emissions_append (digest : Text) (origin : Origin) (a b : List Event) :
    emissions digest origin (a ++ b) = emissions digest origin a + emissions digest origin b :=
      List.countP_append

theorem emissions_displayEvents (digest digest' : Text) {origin : Origin}
    (horigin : origin ≠ .header) (number : ℕ) (name : Text) :
    emissions digest origin (displayEvents digest' number name) = 0 := by
  unfold displayEvents emissions
  split
  · rfl
  · simp [Event.isFor, Ne.symm horigin]

namespace Ordered

/-- The steps are numbered from one, each once. -/
theorem numbers {history : List Event} (h : Ordered history) :
    (displays history).map Prod.snd = List.range' 1 (displays history).length ∧
      ((displays history).map Prod.fst).Nodup := by
  induction h with
  | nil => exact ⟨rfl, List.nodup_nil⟩
  | @display history digest name _ hnew ih =>
      rw [displays_append, displays_displayEvents, List.map_append,
        List.map_append, List.length_append]
      refine ⟨?_, List.nodup_append.mpr ⟨ih.2, List.nodup_singleton _, ?_⟩⟩
      · rw [ih.1, List.length_singleton, List.range'_concat, Nat.one_mul, Nat.add_comm 1]
        rfl
      · rintro a ha b hb rfl
        rw [List.map_singleton, List.mem_singleton] at hb
        rw [hb] at ha
        exact hnew ha
  | emit _ _ _ ih =>
      rw [displays_append, displays_emitted, List.append_nil]
      exact ih

/-- A step has one number. -/
theorem number_unique {history : List Event} (h : Ordered history) {digest : Text} {m n : ℕ}
    (hm : (digest, m) ∈ displays history) (hn : (digest, n) ∈ displays history) : m = n :=
  congrArg Prod.snd (List.inj_on_of_nodup_map h.numbers.2 hm hn rfl)

end Ordered

/-- An event of two histories in a row is in one of them. -/
theorem append_eq_split {a b before after : List Event} {event : Event}
    (h : a ++ b = before ++ event :: after) :
    (∃ more, a = before ++ event :: more ∧ after = more ++ b) ∨
      ∃ more, before = a ++ more ∧ b = more ++ event :: after := by
  rcases List.append_eq_append_iff.mp h with ⟨more, hbefore, hb⟩ | ⟨more, ha, hb⟩
  · exact Or.inr ⟨more, hbefore, hb⟩
  · cases more with
    | nil =>
        refine Or.inr ⟨[], ?_, hb.symm⟩
        rw [ha, List.append_nil, List.append_nil]
    | cons first more =>
        obtain ⟨rfl, hafter⟩ := List.cons.inj hb
        exact Or.inl ⟨more, ha, hafter⟩

namespace Ordered

/-- A text is emitted for a step only after the step is displayed, under its number. -/
theorem labels {history : List Event} (h : Ordered history) :
    ∀ before digest number origin text after,
    history = before ++ .emitted digest number origin text :: after →
      (digest, number) ∈ displays before := by
  induction h with
  | nil =>
      intro before _ _ _ _ _ heq
      exact absurd heq.symm (List.append_ne_nil_of_right_ne_nil _ (List.cons_ne_nil _ _))
  | @display history digest name _ _ ih =>
      intro before digest' number origin text after heq
      rcases append_eq_split heq with ⟨more, hhistory, -⟩ | ⟨more, rfl, hevents⟩
      · exact ih _ _ _ _ _ _ hhistory
      · unfold displayEvents at hevents
        cases more with
        | nil => cases (List.cons.inj hevents).1
        | cons first more =>
            obtain ⟨rfl, htail⟩ := List.cons.inj hevents
            split at htail
            · exact absurd htail.symm (List.append_ne_nil_of_right_ne_nil _ (List.cons_ne_nil _ _))
            · cases more with
              | nil =>
                  obtain ⟨hevent, -⟩ := List.cons.inj htail
                  cases hevent
                  rw [displays_append]
                  exact List.mem_append_right _ List.mem_cons_self
              | cons second more =>
                  obtain ⟨-, hnil⟩ := List.cons.inj htail
                  exact absurd hnil.symm (List.append_ne_nil_of_right_ne_nil
                    _ (List.cons_ne_nil _ _))
  | @emit history digest text number origin _ hmem _ ih =>
      intro before digest' number' origin' text' after heq
      rcases append_eq_split heq with ⟨more, hhistory, -⟩ | ⟨more, rfl, hevents⟩
      · exact ih _ _ _ _ _ _ hhistory
      · cases more with
        | nil =>
            obtain ⟨hevent, -⟩ := List.cons.inj hevents
            cases hevent
            rw [List.append_nil]
            exact hmem
        | cons first more =>
            obtain ⟨-, hnil⟩ := List.cons.inj hevents
            exact absurd hnil.symm (List.append_ne_nil_of_right_ne_nil _ (List.cons_ne_nil _ _))

/-- A step with a name is headed by it as it is displayed. -/
theorem headers {history : List Event} (h : Ordered history) : ∀ before digest number name after,
    history = before ++ .displayed digest number name :: after → name ≠ [] →
      ∃ rest, after = .emitted digest number .header name :: rest := by
  induction h with
  | nil =>
      intro before _ _ _ _ heq
      exact absurd heq.symm (List.append_ne_nil_of_right_ne_nil _ (List.cons_ne_nil _ _))
  | @display history digest name _ _ ih =>
      intro before digest' number name' after heq hname
      rcases append_eq_split heq with ⟨more, hhistory, rfl⟩ | ⟨more, rfl, hevents⟩
      · obtain ⟨rest, rfl⟩ := ih _ _ _ _ _ hhistory hname
        exact ⟨rest ++ displayEvents digest ((displays history).length + 1) name, rfl⟩
      · unfold displayEvents at hevents
        cases more with
        | nil =>
            obtain ⟨hevent, htail⟩ := List.cons.inj hevents
            cases hevent
            rw [if_neg hname] at htail
            exact ⟨[], htail.symm⟩
        | cons first more =>
            obtain ⟨-, htail⟩ := List.cons.inj hevents
            have hmem : Event.displayed digest' number name' ∈
                (if name = [] then [] else [.emitted digest ((displays history).length + 1)
                  .header name]) := by
              rw [htail]
              exact List.mem_append_right _ List.mem_cons_self
            split at hmem
            · exact absurd hmem List.not_mem_nil
            · cases List.mem_singleton.mp hmem
  | @emit history digest text number origin _ _ _ ih =>
      intro before digest' number' name after heq hname
      rcases append_eq_split heq with ⟨more, hhistory, rfl⟩ | ⟨more, rfl, hevents⟩
      · obtain ⟨rest, rfl⟩ := ih _ _ _ _ _ hhistory hname
        exact ⟨rest ++ [.emitted digest number origin text], rfl⟩
      · have hmem : Event.displayed digest' number' name ∈
            [.emitted digest number origin text] := by
          rw [hevents]
          exact List.mem_append_right _ List.mem_cons_self
        cases List.mem_singleton.mp hmem

end Ordered

/-! ### What a buffer makes of its actions -/

/-- A buffer after an action, and the lines it completes. -/
def BufferAction.apply (buffer : LineBuffer) : BufferAction → LineBuffer × List Text
  | .chunk bytes => buffer.push bytes
  | .restart => buffer.flush

/-- A buffer after actions, and all lines it completes. -/
def feed : LineBuffer → List BufferAction → LineBuffer × List Text
  | buffer, [] => (buffer, [])
  | buffer, action :: actions =>
      let (next, lines) := action.apply buffer
      let (last, more) := feed next actions
      (last, lines ++ more)

theorem feed_append (buffer : LineBuffer) (a b : List BufferAction) : feed buffer (a ++ b) =
    ((feed (feed buffer a).1 b).1, (feed buffer a).2 ++ (feed (feed buffer a).1 b).2) := by
  induction a generalizing buffer with
  | nil => rfl
  | cons action a ih =>
      rw [List.cons_append, feed, feed]
      simp only [ih, List.append_assoc]

theorem feed_concat (buffer : LineBuffer) (actions : List BufferAction) (action : BufferAction) :
    feed buffer (actions ++ [action]) =
      ((action.apply (feed buffer actions).1).1, (feed buffer actions).2 ++
        (action.apply (feed buffer actions).1).2) := by
  rw [feed_append]
  simp only [feed, List.append_nil]

/-- From the start of a segment on, a buffer frames each segment by itself. -/
theorem feed_segments (buffer : LineBuffer) (actions : List BufferAction) :
    (feed buffer actions).2 ++ (feed buffer actions).1.flush.2 =
      ((buffer.push (segments actions).1).2 ++ (buffer.push (segments actions).1).1.flush.2) ++
        (segments actions).2.flatMap LineBuffer.frame := by
  induction actions generalizing buffer with
  | nil => simp only [feed, segments, LineBuffer.push, List.flatMap_nil, List.append_nil]
  | cons action actions ih =>
      cases action with
      | chunk bytes =>
          simp only [feed, segments, BufferAction.apply, LineBuffer.push_append,
            List.append_assoc, ih]
      | restart =>
          simp only [feed, segments, BufferAction.apply, LineBuffer.push, List.flatMap_cons,
            List.append_assoc, ih, LineBuffer.flush_fst, List.nil_append]
          rw [LineBuffer.frame, List.append_assoc]

/-- What the buffer completes, and what it still has at the end, is the framing of the log. -/
theorem feed_framed (actions : List BufferAction) :
    (feed .new actions).2 ++ (feed .new actions).1.flush.2 = framed actions :=
      feed_segments .new actions

theorem feed_keeps {buffer : LineBuffer} (h : buffer.Unbroken) (actions : List BufferAction) :
    LineBuffer.Keeps (feed buffer actions) := by
  induction actions generalizing buffer with
  | nil => exact ⟨h, fun line hline => absurd hline List.not_mem_nil⟩
  | cons action actions ih =>
      have hnext : LineBuffer.Keeps (action.apply buffer) := by
        cases action with
        | chunk bytes => exact h.push bytes
        | restart => exact h.flush
      obtain ⟨hlast, hmore⟩ := ih hnext.1
      exact ⟨hlast, fun line hline => (List.mem_append.mp hline).elim (hnext.2 line) (hmore line)⟩

/-! ### Good outputs -/

/-- The numbers and the lines of an output are its history's. -/
structure Core (total : List Text) (out : BuildKitOutput) : Prop where
  ordered : Ordered out.history
  lastNumber : out.lastNumber = (displays out.history).length
  numbered : ∀ digest number, (out.entry digest).number = some number ↔
    (digest, number) ∈ displays out.history
  lines : total = out.history.flatMap Event.lines
  transcript : out.transcript = total.flatMap (· ++ ['\n'])

/-- The texts that a step has at most once. -/
def Origin.Once (origin : Origin) : Prop := origin = .cached ∨ origin = .error

/-- Whether a step is marked as having had one. -/
def Step.flag (step : Step) : Origin → Bool
  | .cached => step.shownCached
  | .error => step.shownError
  | .header | .log => false

/-- And so are its flags and its buffers, which were given these actions. -/
structure Good (actions : Text → List BufferAction) (total : List Text)
    (out : BuildKitOutput) : Prop
    extends Core total out where
  buffer : ∀ digest, (out.entry digest).lines = (feed .new (actions digest)).1
  logs : ∀ digest, logTexts digest out.history = (feed .new (actions digest)).2
  unnumbered : ∀ digest, (out.entry digest).number = none → (out.entry digest).lines = .new
  once : ∀ digest origin,
    origin.Once → emissions digest origin out.history ≤ ((out.entry digest).flag origin).toNat

theorem entry_update (out : BuildKitOutput) (digest : Text) (change : Step → Step)
    (digest' : Text) :
    (out.update digest change).entry digest' =
      if digest' = digest then change (out.entry digest) else out.entry digest' := by
  unfold BuildKitOutput.update
  unfold BuildKitOutput.entry
  dsimp only
  rw [IndexMap.get?_insert]
  split
  · rfl
  · rfl

@[simp] theorem history_update (out : BuildKitOutput) (digest : Text) (change : Step → Step) :
    (out.update digest change).history = out.history := rfl

/-- A change that keeps what the history is about. -/
theorem Core.update {total : List Text} {out : BuildKitOutput} (h : Core total out) (digest : Text)
    {change : Step → Step} (hnumber : ∀ step, (change step).number = step.number) :
    Core total (out.update digest change) := by
  refine ⟨h.ordered, h.lastNumber, fun digest' number => ?_, h.lines, h.transcript⟩
  rw [entry_update, history_update, ← h.numbered]
  split
  · next heq => rw [hnumber, heq]
  · rfl

/-- A change of a step's name and flags, none of which is taken back. -/
theorem Good.update {actions : Text → List BufferAction} {total : List Text} {out : BuildKitOutput}
    (h : Good actions total out) (digest : Text) {change : Step → Step}
    (hnumber : ∀ step, (change step).number = step.number)
    (hlines : ∀ step, (change step).lines = step.lines)
    (hflag : ∀ step origin, step.flag origin = true → (change step).flag origin = true) :
    Good actions total (out.update digest change) := by
  have hbool : ∀ {a b : Bool}, (a = true → b = true) → a.toNat ≤ b.toNat := by
    intro a b hab
    cases a with
    | false => exact Nat.zero_le _
    | true => rw [hab rfl]
  refine ⟨h.toCore.update digest hnumber, fun digest' => ?_, h.logs, fun digest' => ?_,
    fun digest' origin honce => ?_⟩
  · rw [entry_update, ← h.buffer]
    split
    · next heq => rw [hlines, heq]
    · rfl
  · rw [entry_update]
    split
    · next heq =>
        rw [hnumber, hlines, ← heq]
        exact h.unnumbered digest'
    · exact h.unnumbered digest'
  · rw [entry_update, history_update]
    refine (h.once digest' origin honce).trans ?_
    split
    · next heq => exact hbool (heq ▸ hflag _ origin)
    · exact le_rfl

/-! ### Emitting -/

/-- The output after a text is emitted. -/
def emitted (out : BuildKitOutput) (digest : Text) (number : ℕ) (origin : Origin)
    (text : Text) : BuildKitOutput :=
  { out with
    transcript :=
      out.transcript ++ ((text.splitOn '\n').map (labelled number)).flatMap (· ++ ['\n'])
    history := out.history ++ [.emitted digest number origin text] }

/-- A numbered step's text is emitted. -/
theorem emit_eq {out : BuildKitOutput} {lines : List Text} {digest : Text} {number : ℕ}
    (h : (out.entry digest).number = some number) (origin : Origin) (text : Text) :
    emit digest origin text (out, lines) = some (emitted out digest number origin text,
      lines ++ Event.lines (.emitted digest number origin text)) := by
  unfold BuildKitOutput.entry at h
  unfold emit
  dsimp only
  cases hstep : out.steps.get? digest with
  | none =>
      rw [hstep] at h
      cases h
  | some step =>
      rw [hstep, Option.getD_some] at h
      rw [Option.bind_eq_bind, Option.bind_some, h]
      rfl

theorem Core.emitted {total : List Text} {out : BuildKitOutput} (h : Core total out) {digest : Text}
    {number : ℕ} (hnumber : (out.entry digest).number = some number) {origin : Origin}
    (horigin : origin ≠ .header) (text : Text) :
    Core (total ++ Event.lines (.emitted digest number origin text))
      (emitted out digest number origin text) := by
  have hdisplays : displays (BuildOutput.emitted out digest number origin text).history =
      displays out.history := by
    unfold BuildOutput.emitted
    rw [displays_append, displays_emitted, List.append_nil]
  refine ⟨.emit h.ordered ((h.numbered _ _).mp hnumber) horigin, ?_,
    fun digest' number' => ?_, ?_, ?_⟩
  · rw [hdisplays]
    exact h.lastNumber
  · rw [hdisplays]
    exact h.numbered digest' number'
  · unfold BuildOutput.emitted
    rw [List.flatMap_append, ← h.lines, List.flatMap_singleton]
  · unfold BuildOutput.emitted Event.lines
    rw [List.flatMap_append, ← h.transcript]

/-! ### Going on -/

/-- An operation from a good output ends in a good output, with lines added and its history
longer. -/
def Advances (actions : Text → List BufferAction) (total : List Text) (start : Shown)
    (post : BuildKitOutput → Prop) (result : Option Shown) : Prop :=
  ∃ out added, result = some (out, start.2 ++ added) ∧ Good actions (total ++ added) out ∧
    start.1.history <+: out.history ∧ post out

section advances

variable {actions actions' : Text → List BufferAction} {total lines : List Text}
    {out : BuildKitOutput} {post post' : BuildKitOutput → Prop}

theorem Advances.pure (h : Good actions total out) (hpost : post out) :
    Advances actions total (out, lines) post (some (out, lines)) :=
  ⟨out, [], by rw [List.append_nil], by rwa [List.append_nil], List.prefix_refl _, hpost⟩

theorem Advances.bind {start : Shown} {result : Option Shown} {next : Shown → Option Shown}
    (h : Advances actions total start post result)
    (hnext : ∀ out added, Good actions (total ++ added) out →
      start.1.history <+: out.history → post out →
      Advances actions' (total ++ added) (out, start.2 ++ added) post'
        (next (out, start.2 ++ added))) :
    Advances actions' total start post' (result >>= next) := by
  obtain ⟨out, added, rfl, hgood, hprefix, hpost⟩ := h
  obtain ⟨last, more, hresult, hlast, hprefix', hpost'⟩ := hnext out added hgood hprefix hpost
  refine ⟨last, added ++ more, ?_, ?_, hprefix.trans hprefix', hpost'⟩
  · rw [Option.bind_eq_bind, Option.bind_some, hresult, List.append_assoc]
  · rwa [← List.append_assoc]

/-- One step after another, each with its own actions. -/
theorem Advances.foldlM {α : Type} {step : Shown → α → Option Shown}
    (given : α → Text → List BufferAction)
    (hstep : ∀ a actions total lines out, Good actions total out →
      Advances (fun digest => actions digest ++ given a digest) total (out, lines) (fun _ => True)
        (step (out, lines) a))
    (l : List α) (h : Good actions total out) :
    Advances (fun digest => actions digest ++ l.flatMap (given · digest)) total
      (out, lines) (fun _ => True)
      (l.foldlM step (out, lines)) := by
  induction l generalizing actions total lines out with
  | nil =>
      simp only [List.flatMap_nil, List.append_nil]
      exact .pure h trivial
  | cons a l ih =>
      rw [List.foldlM_cons]
      refine (hstep a actions total lines out h).bind fun next added hnext _ _ => ?_
      have hmore :=
        @ih (fun digest => actions digest ++ given a digest) (total ++ added)
          (lines ++ added) next hnext
      simpa only [List.flatMap_cons, List.append_assoc] using hmore

/-- Flags and counts are not moved by an operation. -/
def SameFlags (out out' : BuildKitOutput) : Prop :=
  ∀ digest origin, origin.Once → (out'.entry digest).flag origin = (out.entry digest).flag origin ∧
    emissions digest origin out'.history = emissions digest origin out.history

/-! ### Displaying -/

/-- The output after a step is displayed for the first time. -/
def numberedOutput (out : BuildKitOutput) (digest : Text) : BuildKitOutput :=
  { (out.update digest id).update digest ({ · with number := some (out.lastNumber + 1) }) with
    lastNumber := out.lastNumber + 1
    history := out.history ++ [.displayed digest (out.lastNumber + 1) (out.entry digest).name] }

theorem entry_update_id (out : BuildKitOutput) (digest digest' : Text) :
    (out.update digest id).entry digest' = out.entry digest' := by
  rw [entry_update]
  split
  · next heq => rw [heq, id]
  · rfl

theorem entry_numberedOutput (out : BuildKitOutput) (digest digest' : Text) :
    (numberedOutput out digest).entry digest' =
      if digest' = digest then { out.entry digest with number := some (out.lastNumber + 1) }
      else out.entry digest' := by
  have hupdate :=
    entry_update (out.update digest id) digest
      ({ · with number := some (out.lastNumber + 1) }) digest'
  rw [entry_update_id, entry_update_id] at hupdate
  exact hupdate

/-- What is returned with the header of a step. -/
def headerLines (number : ℕ) (name : Text) : List Text :=
  if name = [] then [] else (name.splitOn '\n').map (labelled number)

/-- The output after a step and its header are displayed. -/
def headedOutput (out : BuildKitOutput) (digest : Text) : BuildKitOutput :=
  if (out.entry digest).name = [] then numberedOutput out digest
  else emitted (numberedOutput out digest) digest (out.lastNumber + 1) .header
    (out.entry digest).name

theorem showStep_unnumbered {digest : Text} (h : (out.entry digest).number = none) :
    showStep digest (out, lines) =
      some (headedOutput out digest,
        lines ++ headerLines (out.lastNumber + 1) (out.entry digest).name) := by
  have hentry := entry_update_id out digest digest
  have hnumber : ((numberedOutput out digest).entry digest).number = some (out.lastNumber + 1) := by
    rw [entry_numberedOutput, if_pos rfl]
  unfold showStep headedOutput headerLines
  dsimp only
  rw [hentry, h, Option.isSome_none, if_neg Bool.false_ne_true]
  by_cases hname : (out.entry digest).name = []
  · rw [if_neg (not_not.mpr hname), if_pos hname, if_pos hname, List.append_nil]
    rfl
  · rw [if_pos hname, if_neg hname, if_neg hname]
    exact emit_eq hnumber .header (out.entry digest).name

theorem history_headedOutput (out : BuildKitOutput) (digest : Text) :
    (headedOutput out digest).history =
    out.history ++ displayEvents digest (out.lastNumber + 1) (out.entry digest).name := by
  unfold headedOutput displayEvents
  split
  · rfl
  · show (out.history ++ [_]) ++ [_] = _
    rw [List.append_assoc]
    rfl

theorem entry_headedOutput (out : BuildKitOutput) (digest digest' : Text) :
    (headedOutput out digest).entry digest' =
      if digest' = digest then { out.entry digest with number := some (out.lastNumber + 1) }
      else out.entry digest' := by
  rw [← entry_numberedOutput]
  unfold headedOutput
  split
  · rfl
  · rfl

theorem Origin.Once.ne_header {origin : Origin} (h : origin.Once) : origin ≠ .header := by
  rintro rfl
  rcases h with h | h <;> cases h

theorem Origin.Once.ne_log {origin : Origin} (h : origin.Once) : origin ≠ .log := by
  rintro rfl
  rcases h with h | h <;> cases h

theorem sameFlags_headedOutput (out : BuildKitOutput) (digest : Text) :
    SameFlags out (headedOutput out digest) := by
  intro digest' origin honce
  rw [entry_headedOutput, history_headedOutput, emissions_append,
    emissions_displayEvents _ _ honce.ne_header, Nat.add_zero]
  refine ⟨?_, rfl⟩
  split
  · next heq =>
      rw [heq]
      cases origin <;> rfl
  · rfl

/-- Displaying a step for the first time keeps an output good. -/
theorem Good.headedOutput (h : Good actions total out) {digest : Text}
    (hnone : (out.entry digest).number = none) :
    Good actions (total ++ headerLines (out.lastNumber + 1) (out.entry digest).name)
      (headedOutput out digest) := by
  have hhistory := history_headedOutput out digest
  have hentry := entry_headedOutput out digest
  have hnew : digest ∉ (displays out.history).map Prod.fst := by
    intro hmem
    obtain ⟨⟨digest', number⟩, hdisplay, rfl⟩ := List.mem_map.mp hmem
    rw [(h.numbered _ _).mpr hdisplay] at hnone
    cases hnone
  have hevents : (displayEvents digest (out.lastNumber + 1) (out.entry digest).name).flatMap
      Event.lines =
      headerLines (out.lastNumber + 1) (out.entry digest).name := by
    unfold displayEvents headerLines
    split
    · rfl
    · simp [Event.lines]
  refine ⟨⟨?_, ?_, fun digest' number => ?_, ?_, ?_⟩, fun digest' => ?_,
    fun digest' => ?_, fun digest' => ?_,
    fun digest' origin honce => ?_⟩
  · rw [hhistory, h.lastNumber]
    exact .display h.ordered hnew
  · rw [hhistory, displays_append, displays_displayEvents, List.length_append, ← h.lastNumber]
    unfold BuildOutput.headedOutput
    split
    · rfl
    · rfl
  · rw [hhistory, displays_append, displays_displayEvents, List.mem_append,
      List.mem_singleton, ← h.numbered, hentry]
    by_cases heq : digest' = digest
    · subst heq
      rw [if_pos rfl, hnone]
      simp [eq_comm]
    · rw [if_neg heq]
      simp [heq]
  · rw [hhistory, List.flatMap_append, hevents, ← h.lines]
  · have htranscript : (BuildOutput.headedOutput out digest).transcript =
        out.transcript ++ (headerLines (out.lastNumber + 1) (out.entry digest).name).flatMap
          (· ++ ['\n']) := by
      unfold BuildOutput.headedOutput headerLines
      split
      · exact (List.append_nil _).symm
      · rfl
    rw [htranscript, h.transcript, List.flatMap_append]
  · rw [hentry, ← h.buffer]
    split
    · next heq => rw [heq]
    · rfl
  · rw [hhistory, logTexts_append, logTexts_displayEvents, List.append_nil, h.logs]
  · rw [hentry]
    split
    · exact fun hsome => by cases hsome
    · exact h.unnumbered digest'
  · obtain ⟨hflag, hcount⟩ := sameFlags_headedOutput out digest digest' origin honce
    rw [hflag, hcount]
    exact h.once digest' origin honce

/-- `show` numbers the step and moves no flag. -/
theorem showStep_advances (h : Good actions total out) (digest : Text) :
    Advances actions total (out, lines)
      (fun next => (∃ number, (next.entry digest).number = some number) ∧ SameFlags out next)
      (showStep digest (out, lines)) := by
  cases hnumber : (out.entry digest).number with
  | none =>
      refine ⟨headedOutput out digest, headerLines (out.lastNumber + 1) (out.entry digest).name,
        showStep_unnumbered hnumber, h.headedOutput hnumber, ?_, ⟨out.lastNumber + 1, ?_⟩,
        sameFlags_headedOutput out digest⟩
      · rw [history_headedOutput]
        exact List.prefix_append _ _
      · rw [entry_headedOutput, if_pos rfl]
  | some number =>
      have hshow : showStep digest (out, lines) = some (out.update digest id, lines) := by
        unfold showStep
        dsimp only
        rw [entry_update_id, hnumber]
        rfl
      rw [hshow]
      refine ⟨out.update digest id, [], by
        rw [List.append_nil], ?_, List.prefix_refl _, ⟨number, ?_⟩, ?_⟩
      · rw [List.append_nil]
        exact h.update digest (fun _ => rfl) (fun _ => rfl) (fun _ _ => id)
      · rw [entry_update_id, hnumber]
      · intro digest' origin _
        rw [entry_update_id]
        exact ⟨rfl, rfl⟩

/-! ### Logs -/

/-- The output after texts of a step's log are emitted. -/
def loggedOutput (out : BuildKitOutput) (digest : Text) (number : ℕ) : List Text → BuildKitOutput
  | [] => out
  | text :: texts => loggedOutput (emitted out digest number .log text) digest number texts

theorem history_loggedOutput (out : BuildKitOutput) (digest : Text) (number : ℕ)
    (texts : List Text) :
    (loggedOutput out digest number texts).history =
      out.history ++ texts.map (.emitted digest number .log) := by
  induction texts generalizing out with
  | nil => exact (List.append_nil _).symm
  | cons text texts ih =>
      rw [loggedOutput, ih, emitted, List.append_assoc]
      rfl

theorem entry_loggedOutput (out : BuildKitOutput) (digest : Text) (number : ℕ) (texts : List Text)
    (digest' : Text) :
    (loggedOutput out digest number texts).entry digest' = out.entry digest' := by
  induction texts generalizing out with
  | nil => rfl
  | cons text texts ih => exact ih (emitted out digest number .log text)

theorem emitAll_eq {digest : Text} {number : ℕ} (h : (out.entry digest).number = some number)
    (texts : List Text) :
    texts.foldlM (fun shown line => emit digest .log line shown) (out, lines) =
      some (loggedOutput out digest number texts,
        lines ++ texts.flatMap fun text => Event.lines (.emitted digest number .log text)) := by
  induction texts generalizing out lines with
  | nil => exact congrArg some (Prod.ext rfl (List.append_nil _).symm)
  | cons text texts ih =>
      rw [List.foldlM_cons, emit_eq h, Option.bind_eq_bind, Option.bind_some, ih, List.flatMap_cons,
        List.append_assoc]
      · rfl
      · exact h

theorem Core.loggedOutput (h : Core total out) {digest : Text} {number : ℕ}
    (hnumber : (out.entry digest).number = some number) (texts : List Text) :
    Core (total ++ texts.flatMap fun text => Event.lines (.emitted digest number .log text))
      (loggedOutput out digest number texts) := by
  induction texts generalizing out total with
  | nil =>
      rw [List.flatMap_nil, List.append_nil]
      exact h
  | cons text texts ih =>
      have horigin : Origin.log ≠ .header := by decide
      have hmore := ih (h.emitted hnumber horigin text) hnumber
      rwa [List.append_assoc] at hmore

theorem logTexts_logged (digest digest' : Text) (number : ℕ) (texts : List Text) :
    logTexts digest (texts.map (.emitted digest' number .log)) =
      if digest = digest' then texts else [] := by
  unfold logTexts
  rw [List.filterMap_map]
  split
  · next heq =>
      rw [heq]
      have hall : ∀ text ∈ texts,
          (Event.logText digest' ∘ Event.emitted digest' number .log) text = some text :=
        fun _ _ => if_pos rfl
      rw [List.filterMap_congr hall]
      exact List.filterMap_some
  · next hne =>
      rw [List.filterMap_eq_nil_iff]
      exact fun _ _ => if_neg (Ne.symm hne)

theorem emissions_logged (digest digest' : Text) {origin : Origin} (horigin : origin ≠ .log)
    (number : ℕ) (texts : List Text) :
    emissions digest origin (texts.map (.emitted digest' number .log)) = 0 := by
  unfold emissions
  rw [List.countP_eq_zero]
  intro event hevent
  obtain ⟨text, -, rfl⟩ := List.mem_map.mp hevent
  simp [Event.isFor, Ne.symm horigin]

/-- What a numbered step's buffer completes is emitted, and the buffer is kept. -/
theorem emitLines_advances (h : Good actions total out) {digest : Text} {number : ℕ}
    (hnumber : (out.entry digest).number = some number) (action : BufferAction) :
    Advances (fun digest' => actions digest' ++ if digest' = digest then [action]
      else []) total (out, lines)
      (fun _ => True) (emitLines digest (action.apply (out.entry digest).lines) (out, lines)) := by
  set result := action.apply (out.entry digest).lines with hresult
  set kept := out.update digest ({ · with lines := result.1 }) with hkept
  have hentry : ∀ digest', kept.entry digest' =
      if digest' = digest then { out.entry digest with lines := result.1 } else out.entry digest' :=
    entry_update out digest _
  have hnumber' : (kept.entry digest).number = some number := by rw [hentry, if_pos rfl, hnumber]
  have hcore : Core total kept := h.toCore.update digest fun _ => rfl
  have hhistory := history_loggedOutput kept digest number result.2
  refine ⟨loggedOutput kept digest number result.2, _, emitAll_eq hnumber' result.2,
    ⟨hcore.loggedOutput hnumber' result.2, fun digest' => ?_, fun digest' => ?_, fun digest' => ?_,
      fun digest' origin honce => ?_⟩, ?_, trivial⟩
  · rw [entry_loggedOutput, hentry]
    split
    · next heq => rw [heq, feed_concat, ← h.buffer]
    · rw [List.append_nil, h.buffer]
  · rw [hhistory, logTexts_append, logTexts_logged, hkept, history_update, h.logs]
    split
    · next heq => rw [heq, feed_concat, ← h.buffer]
    · rw [List.append_nil, List.append_nil]
  · rw [entry_loggedOutput, hentry]
    split
    · intro hnone
      rw [hnumber] at hnone
      cases hnone
    · exact h.unnumbered digest'
  · rw [hhistory, emissions_append, emissions_logged _ _ honce.ne_log, Nat.add_zero,
      entry_loggedOutput, hentry]
    refine (h.once digest' origin honce).trans (Nat.le_of_eq ?_)
    split
    · next heq =>
        rw [heq]
        cases origin <;> rfl
    · rfl
  · rw [hhistory]
    exact List.prefix_append _ _

/-- A step's stream ends; the buffer of a step without a number has nothing. -/
theorem flushStep_advances (h : Good actions total out) (digest : Text) :
    Advances (fun digest' => actions digest' ++ if digest' = digest then [.restart]
      else []) total (out, lines)
      (fun _ => True) (flushStep digest (out, lines)) := by
  cases hnumber : (out.entry digest).number with
  | some number => exact emitLines_advances h hnumber .restart
  | none =>
      have hnew := h.unnumbered digest hnumber
      have hflush : flushStep digest (out, lines) =
          some (out.update digest ({ · with lines := .new }), lines) := by
        unfold flushStep emitLines
        dsimp only
        rw [hnew]
        rfl
      have hentry : ∀ digest',
          (out.update digest ({ · with lines := .new })).entry digest' = out.entry digest' := by
        intro digest'
        rw [entry_update]
        split
        · next heq => rw [heq, ← hnew]
        · rfl
      have hfeed : ∀ digest',
          feed .new (actions digest' ++ if digest' = digest then [.restart] else []) =
          feed .new (actions digest') := by
        intro digest'
        split
        · next heq =>
            have hbuffer : (feed .new (actions digest)).1 = .new :=
              (h.buffer digest).symm.trans hnew
            rw [heq, feed_concat, hbuffer, BufferAction.apply,
              LineBuffer.flush_new, List.append_nil]
            exact Prod.ext hbuffer.symm rfl
        · rw [List.append_nil]
      rw [hflush]
      refine ⟨out.update digest ({ · with lines := .new }), [], by rw [List.append_nil],
        ⟨?_, fun digest' => ?_, fun digest' => ?_, fun digest' => ?_,
        fun digest' origin honce => ?_⟩, List.prefix_refl _, trivial⟩
      · rw [List.append_nil]
        exact h.toCore.update digest fun _ => rfl
      · rw [hentry, hfeed, h.buffer]
      · rw [hfeed]
        exact h.logs digest'
      · rw [hentry]
        exact h.unnumbered digest'
      · rw [hentry]
        exact h.once digest' origin honce

/-! ### Texts that come once -/

theorem logTexts_emitted_once (digest digest' : Text) {origin : Origin} (honce : origin.Once)
    (number : ℕ) (text : Text) : logTexts digest [.emitted digest' number origin text] = [] := by
  rcases honce with rfl | rfl
  · rfl
  · rfl

/-- A step that is marked and has had no such text yet gets one. -/
theorem emitOnce_advances (h : Good actions total out) {digest : Text} {number : ℕ}
    (hnumber : (out.entry digest).number = some number) {origin : Origin} (honce : origin.Once)
    (hflag : (out.entry digest).flag origin = true)
    (hzero : emissions digest origin out.history = 0) (text : Text) :
    Advances actions total (out, lines) (fun _ => True) (emit digest origin text (out, lines)) := by
  refine ⟨_, _, emit_eq hnumber origin text,
    ⟨h.toCore.emitted hnumber honce.ne_header text, h.buffer,
    fun digest' => ?_, h.unnumbered, fun digest' origin' honce' => ?_⟩,
      List.prefix_append _ _, trivial⟩
  · unfold emitted
    rw [logTexts_append, logTexts_emitted_once _ _ honce, List.append_nil, h.logs]
  · unfold emitted
    rw [emissions_append]
    by_cases hsame : digest' = digest ∧ origin' = origin
    · obtain ⟨rfl, rfl⟩ := hsame
      show _ ≤ ((out.entry digest').flag origin').toNat
      rw [hzero, hflag]
      simp [emissions, Event.isFor]
    · have hnone : emissions digest' origin' [.emitted digest number origin text] = 0 := by
        unfold emissions
        rw [List.countP_eq_zero]
        intro event hevent
        rw [List.mem_singleton.mp hevent]
        simp only [Event.isFor, decide_eq_true_eq]
        exact fun heq => hsame ⟨heq.1.symm, heq.2.symm⟩
      rw [hnone, Nat.add_zero]
      exact h.once digest' origin' honce'

/-- Nothing was emitted for a flag that is not set. -/
theorem Good.emissions_zero (h : Good actions total out) {digest : Text} {origin : Origin}
    (honce : origin.Once) (hflag : (out.entry digest).flag origin = false) :
    emissions digest origin out.history = 0 := by
  have hle := h.once digest origin honce
  rw [hflag] at hle
  exact Nat.le_zero.mp hle

/-- A step is shown, and then gets a text that it has not had. -/
theorem showOnce_advances (h : Good actions total out) {digest : Text} {origin : Origin}
    (honce : origin.Once) (hflag : (out.entry digest).flag origin = true)
    (hzero : emissions digest origin out.history = 0) (text : Text) :
    Advances actions total (out, lines) (fun _ => True)
      (showStep digest (out, lines) >>= emit digest origin text) := by
  refine (showStep_advances h digest).bind fun next added hnext _ hpost => ?_
  obtain ⟨⟨number, hnumber⟩, hsame⟩ := hpost
  obtain ⟨hflag', hcount⟩ := hsame digest origin honce
  exact emitOnce_advances hnext hnumber honce (hflag'.trans hflag) (hcount.trans hzero) text

/-! ### The passes of an update -/

theorem Good.nameStep (h : Good actions total out) (vertex : Vertex) :
    Good actions total (nameStep out vertex) := by
  refine h.update vertex.digest (fun step => ?_) (fun step => ?_) fun step origin => ?_
  · split <;> rfl
  · split <;> rfl
  · split
    · cases origin <;> exact id
    · exact id

/-- After the first pass every step of the update is there. -/
theorem foldl_nameStep (h : Good actions total out) (vertexes : List Vertex) :
    Good actions total (vertexes.foldl nameStep out) ∧
      (vertexes.foldl nameStep out).history = out.history ∧
      ∀ digest, digest ∈ vertexes.map Vertex.digest ∨ digest ∈ out.steps.keys →
        digest ∈ (vertexes.foldl nameStep out).steps.keys := by
  induction vertexes generalizing out with
  | nil =>
      exact ⟨h, rfl, fun digest hdigest =>
        hdigest.elim (fun hmem => absurd hmem List.not_mem_nil) id⟩
  | cons vertex vertexes ih =>
      obtain ⟨hgood, hhistory, hkeys⟩ := ih (h.nameStep vertex)
      refine ⟨hgood, hhistory, fun digest hdigest => hkeys digest ?_⟩
      rw [BuildOutput.nameStep, BuildKitOutput.update, IndexMap.mem_keys_insert]
      rcases hdigest with hdigest | hdigest
      · rcases List.mem_cons.mp hdigest with rfl | hmore
        · exact Or.inr (Or.inr rfl)
        · exact Or.inl hmore
      · exact Or.inr (Or.inl hdigest)

theorem startingVertexes_total {vertexes : List Vertex}
    (h : ∀ vertex ∈ vertexes, vertex.digest ∈ out.steps.keys) :
    ∃ starting, startingVertexes out vertexes = some starting := by
  induction vertexes with
  | nil => exact ⟨[], rfl⟩
  | cons vertex vertexes ih =>
      obtain ⟨starting, hstarting⟩ :=
        ih fun vertex hvertex => h vertex (List.mem_cons_of_mem _ hvertex)
      have hstarts : ∃ starts : Bool, (if vertex.started = true then
          (out.steps.get? vertex.digest).map (!·.started) else some false) = some starts := by
        split
        · obtain ⟨step, hstep⟩ := Option.isSome_iff_exists.mp
            (IndexMap.get?_isSome_iff.mpr (h vertex List.mem_cons_self))
          rw [hstep]
          exact ⟨_, rfl⟩
        · exact ⟨false, rfl⟩
      obtain ⟨starts, hstarts⟩ := hstarts
      rw [startingVertexes, hstarts, hstarting]
      exact ⟨_, rfl⟩

theorem startStep_advances (h : Good actions total out) (vertex : Vertex) :
    Advances actions total (out, lines) (fun _ => True) (startStep (out, lines) vertex) := by
  set begun := out.update vertex.digest ({ · with started := true }) with hbegun
  have hgood : Good actions total begun := by
    refine h.update vertex.digest (fun _ => rfl) (fun _ => rfl) fun step origin => ?_
    cases origin <;> exact id
  have hmark : ∀ (step : Step) origin, step.flag origin = true →
      ({ step with shownCached := true } : Step).flag origin = true := by
    intro step origin hflag
    cases origin with
    | cached => rfl
    | error => exact hflag
    | header => exact hflag
    | log => exact hflag
  unfold startStep
  dsimp only
  rw [← hbegun]
  cases hcached : vertex.cached with
  | false =>
      rw [Bool.false_and, if_neg Bool.false_ne_true]
      refine (showStep_advances hgood vertex.digest).bind fun next added hnext _ _ => ?_
      exact .pure hnext trivial
  | true =>
      have hmarked : Good actions total
          (begun.update vertex.digest ({ · with shownCached := true })) :=
        hgood.update vertex.digest (fun _ => rfl) (fun _ => rfl) hmark
      rw [Bool.true_and, if_pos rfl]
      cases hshown : (begun.entry vertex.digest).shownCached with
      | true =>
          refine (showStep_advances hmarked vertex.digest).bind fun next added hnext _ _ => ?_
          exact .pure hnext trivial
      | false =>
          have hzero := hgood.emissions_zero (Or.inl rfl) hshown
          refine showOnce_advances hmarked (Or.inl rfl) ?_ hzero "CACHED".toList
          rw [entry_update, if_pos rfl]
          rfl

theorem logStep_advances (h : Good actions total out) (log : VertexLog) :
    Advances (fun digest => actions digest ++ if digest = log.vertex then [.chunk log.msg]
      else []) total (out, lines)
      (fun _ => True) (logStep (out, lines) log) := by
  refine (showStep_advances h log.vertex).bind fun next added hnext _ hpost => ?_
  obtain ⟨⟨number, hnumber⟩, -⟩ := hpost
  exact emitLines_advances hnext hnumber (.chunk log.msg)

/-- The actions of a vertex in the last pass. -/
def endActions (vertex : Vertex) (digest : Text) : List BufferAction :=
  if vertex.digest = digest ∧ (vertex.completed = true ∨ vertex.error ≠ []) then [.restart] else []

theorem endStep_advances (h : Good actions total out) (vertex : Vertex) :
    Advances (fun digest => actions digest ++ endActions vertex digest) total
      (out, lines) (fun _ => True)
      (endStep (out, lines) vertex) := by
  have hflushed : Advances
      (fun digest => actions digest ++ endActions vertex digest) total (out, lines)
      (fun _ => True)
      (if vertex.completed = true ∨ vertex.error ≠ [] then flushStep vertex.digest (out, lines)
        else some (out, lines)) := by
    by_cases hends : vertex.completed = true ∨ vertex.error ≠ []
    · have hactions : endActions vertex = fun digest => if digest = vertex.digest then
          [.restart] else [] := by
        funext digest
        unfold endActions
        by_cases heq : vertex.digest = digest
        · rw [if_pos ⟨heq, hends⟩, if_pos heq.symm]
        · rw [if_neg fun hboth => heq hboth.1, if_neg (Ne.symm heq)]
      rw [if_pos hends, hactions]
      exact flushStep_advances h vertex.digest
    · have hactions : endActions vertex = fun _ => [] := by
        funext digest
        exact if_neg fun hboth => hends hboth.2
      rw [if_neg hends, hactions]
      simp only [List.append_nil]
      exact .pure h trivial
  refine hflushed.bind fun next added hnext _ _ => ?_
  dsimp only
  by_cases herror : vertex.error ≠ []
  · rw [if_pos herror]
    have hmarked : Good (fun digest => actions digest ++ endActions vertex digest) (total ++ added)
        (next.update vertex.digest ({ · with shownError := true })) := by
      refine hnext.update vertex.digest (fun _ => rfl) (fun _ => rfl) fun step origin hflag => ?_
      cases origin with
      | error => rfl
      | cached => exact hflag
      | header => exact hflag
      | log => exact hflag
    cases hshown : (next.entry vertex.digest).shownError with
    | true => exact .pure hmarked trivial
    | false =>
        have hzero := hnext.emissions_zero (Or.inr rfl) hshown
        rw [if_pos rfl]
        refine showOnce_advances hmarked (Or.inr rfl) ?_ hzero _
        rw [entry_update, if_pos rfl]
        rfl
  · rw [if_neg herror]
    exact .pure hnext trivial

/-! ### Whole updates -/

/-- The steps of a pass have no actions. -/
theorem foldlM_startStep (h : Good actions total out) (vertexes : List Vertex) :
    Advances actions total (out, lines) (fun _ => True)
      (vertexes.foldlM startStep (out, lines)) := by
  have hall : Advances (fun digest => actions digest ++ vertexes.flatMap fun _ => []) total
      (out, lines)
      (fun _ => True) (vertexes.foldlM startStep (out, lines)) := by
    refine Advances.foldlM (fun _ _ => [])
      (fun vertex actions total lines out hgood => ?_) vertexes h
    simp only [List.append_nil]
    exact startStep_advances hgood vertex
  have hsame : (fun digest => actions digest ++ vertexes.flatMap fun _ => []) = actions := by
    funext digest
    rw [List.flatMap_eq_nil_iff.mpr fun _ _ => rfl, List.append_nil]
  rwa [hsame] at hall

theorem map_filter_eq_flatMap {α β : Type} (p : α → Prop) [DecidablePred p] (f : α → β)
    (l : List α) :
    (l.filter fun a => decide (p a)).map f = l.flatMap fun a => if p a then [f a] else [] := by
  induction l with
  | nil => rfl
  | cons a l ih =>
      rw [List.filter_cons, List.flatMap_cons, ← ih]
      by_cases ha : p a
      · rw [if_pos (decide_eq_true ha), if_pos ha]
        rfl
      · rw [if_neg (by simpa using ha), if_neg ha]
        rfl

theorem actions_eq (status : StatusResponse) (digest : Text) : status.actions digest =
    (status.logs.flatMap fun log => if digest = log.vertex then [.chunk log.msg] else []) ++
      status.vertexes.flatMap (endActions · digest) := by
  unfold StatusResponse.actions endActions
  rw [map_filter_eq_flatMap, map_filter_eq_flatMap]
  simp only [eq_comm]

/-- An update keeps an output good, with the update's actions. -/
theorem push_advances (h : Good actions total out) (status : StatusResponse) :
    Advances (fun digest => actions digest ++ status.actions digest) total (out, []) (fun _ => True)
      (out.push status) := by
  obtain ⟨hnamed, hhistory, hkeys⟩ := foldl_nameStep h status.vertexes
  obtain ⟨starting, hstarting⟩ : ∃ starting,
      startingVertexes (status.vertexes.foldl nameStep out) status.vertexes = some starting :=
    startingVertexes_total fun vertex hvertex =>
      hkeys vertex.digest (Or.inl (List.mem_map_of_mem hvertex))
  obtain ⟨ordered, hordered, -⟩ := displayOrder_perm starting
  have hpasses : Advances (fun digest => actions digest ++ status.actions digest) total
      (status.vertexes.foldl nameStep out, []) (fun _ => True)
      (ordered.foldlM startStep (status.vertexes.foldl nameStep out, []) >>= fun shown =>
        status.logs.foldlM logStep shown >>= fun shown =>
          status.vertexes.foldlM endStep shown) := by
    refine (foldlM_startStep hnamed ordered).bind fun started added hstarted _ _ => ?_
    refine (Advances.foldlM _ (fun log actions total lines out hgood => logStep_advances hgood log)
      status.logs hstarted).bind fun logged added' hlogged _ _ => ?_
    have hactions : (fun digest => actions digest ++ status.actions digest) = fun digest =>
        (actions digest ++ status.logs.flatMap fun log =>
          if digest = log.vertex then [.chunk log.msg] else []) ++
          status.vertexes.flatMap (endActions · digest) := by
      funext digest
      rw [actions_eq, List.append_assoc]
    rw [hactions]
    exact Advances.foldlM _ (fun vertex actions total lines out hgood =>
      endStep_advances hgood vertex)
      status.vertexes hlogged
  obtain ⟨last, added, hresult, hlast, hprefix, -⟩ := hpasses
  refine ⟨last, added, ?_, hlast, by rwa [hhistory] at hprefix, trivial⟩
  unfold BuildKitOutput.push
  dsimp only
  rw [hstarting, Option.bind_eq_bind, Option.bind_some, hordered]
  exact hresult

theorem good_new : Good (fun _ => []) [] .new := by
  have hentry : ∀ digest, BuildKitOutput.new.entry digest = {} := fun _ => rfl
  refine ⟨⟨.nil, rfl, fun digest number => ?_, rfl, rfl⟩, fun _ => rfl,
    fun _ => rfl, fun _ _ => rfl,
    fun _ _ _ => Nat.zero_le _⟩
  rw [hentry]
  exact ⟨fun h => (by cases h), fun h => absurd h List.not_mem_nil⟩

/-! ### Whole builds -/

theorem pushAll_advances (h : Good actions total out) (updates : List StatusResponse) :
    Advances (fun digest => actions digest ++ updates.flatMap (·.actions digest)) total
      (out, []) (fun _ => True)
      (pushAll updates out) := by
  induction updates generalizing actions total out with
  | nil =>
      simp only [List.flatMap_nil, List.append_nil]
      exact .pure h trivial
  | cons status updates ih =>
      obtain ⟨next, added, hpush, hnext, hprefix, -⟩ := push_advances h status
      obtain ⟨last, more, hall, hlast, hprefix', -⟩ := ih hnext
      refine ⟨last, added ++ more, ?_, ?_, hprefix.trans hprefix', trivial⟩
      · rw [pushAll, hpush, Option.bind_eq_bind, Option.bind_some]
        dsimp only
        rw [List.nil_append] at hall ⊢
        rw [List.nil_append, hall]
        rfl
      · simpa only [List.flatMap_cons, List.append_assoc] using hlast

theorem pushAll_append (a b : List StatusResponse) (out : BuildKitOutput) : pushAll (a ++ b) out =
    (pushAll a out).bind fun first => (pushAll b first.1).map fun second =>
      (second.1, first.2 ++ second.2) := by
  induction a generalizing out with
  | nil =>
      rw [List.nil_append, pushAll, Option.bind_some]
      cases pushAll b out with
      | none => rfl
      | some second => rfl
  | cons status a ih =>
      rw [List.cons_append, pushAll, pushAll]
      cases out.push status with
      | none => rfl
      | some first =>
          obtain ⟨next, lines⟩ := first
          rw [Option.bind_eq_bind, Option.bind_some, Option.bind_some]
          dsimp only
          rw [ih]
          cases pushAll a next with
          | none => rfl
          | some middle =>
              rw [Option.bind_some]
              cases hsecond : pushAll b middle.1 with
              | none => simp [hsecond]
              | some second => simp [hsecond, List.append_assoc]

/-! ### The end of the stream -/

/-- The numbered steps are those whose streams are ended. -/
theorem mem_unfinished {digest : Text} {number : ℕ} (h : (out.entry digest).number = some number) :
    (number, digest) ∈ out.unfinished := by
  unfold BuildKitOutput.unfinished
  rw [List.mem_mergeSort, List.mem_filterMap]
  unfold BuildKitOutput.entry at h
  cases hstep : out.steps.get? digest with
  | none =>
      rw [hstep] at h
      cases h
  | some step =>
      rw [hstep, Option.getD_some] at h
      exact ⟨(digest, step), IndexMap.mem_entries_of_get? hstep, by rw [h]; rfl⟩

/-- The order of the map's entries is lost in the sorting. -/
theorem unfinished_of_perm {out' : BuildKitOutput} (h : out'.steps.entries.Perm out.steps.entries) :
    out'.unfinished = out.unfinished := by
  unfold BuildKitOutput.unfinished
  set le : ℕ × Text → ℕ × Text → Bool :=
    fun a b => decide (a.1 < b.1 ∨ a.1 = b.1 ∧ a.2 ≤ b.2) with hle
  have htrans : ∀ a b c, le a b = true → le b c = true → le a c = true := by
    intro a b c hab hbc
    rw [hle, decide_eq_true_iff] at hab hbc ⊢
    rcases hab with hab | ⟨hab, hab'⟩
    · rcases hbc with hbc | ⟨hbc, -⟩
      · exact Or.inl (hab.trans hbc)
      · exact Or.inl (hbc ▸ hab)
    · rcases hbc with hbc | ⟨hbc, hbc'⟩
      · exact Or.inl (hab ▸ hbc)
      · exact Or.inr ⟨hab.trans hbc, hab'.trans hbc'⟩
  have htotal : ∀ a b, (le a b || le b a) = true := by
    intro a b
    rw [Bool.or_eq_true, hle, decide_eq_true_iff, decide_eq_true_iff]
    rcases lt_trichotomy a.1 b.1 with hlt | heq | hgt
    · exact Or.inl (Or.inl hlt)
    · rcases le_total a.2 b.2 with htext | htext
      · exact Or.inl (Or.inr ⟨heq, htext⟩)
      · exact Or.inr (Or.inr ⟨heq.symm, htext⟩)
    · exact Or.inr (Or.inl hgt)
  have hperm :=
    ((List.mergeSort_perm _ le).trans
      (h.filterMap fun entry => entry.2.number.map (·, entry.1))).trans
    (List.mergeSort_perm _ le).symm
  refine hperm.eq_of_pairwise ?_ (List.pairwise_mergeSort htrans htotal _)
    (List.pairwise_mergeSort htrans htotal _)
  intro a b _ _ hab hba
  rw [hle, decide_eq_true_iff] at hab hba
  have hfirst : a.1 = b.1 := by omega
  have hsecond : a.2 = b.2 := by
    rcases hab with hab | ⟨-, hab⟩
    · omega
    · rcases hba with hba | ⟨-, hba⟩
      · omega
      · exact le_antisymm hab hba
  exact Prod.ext hfirst hsecond

theorem feed_new_restarts {restarts : List BufferAction}
    (h : ∀ action ∈ restarts, action = .restart) : feed .new restarts = (.new, []) := by
  induction restarts with
  | nil => rfl
  | cons action restarts ih =>
      rw [h action List.mem_cons_self, feed, BufferAction.apply, LineBuffer.flush_new]
      dsimp only
      rw [ih fun action haction => h action (List.mem_cons_of_mem _ haction)]
      rfl

/-- One restart or more end a segment. -/
theorem feed_restarts (buffer : LineBuffer) {restarts : List BufferAction}
    (h : ∀ action ∈ restarts, action = .restart) (hne : restarts ≠ []) :
    (feed buffer restarts).2 = buffer.flush.2 := by
  cases restarts with
  | nil => exact absurd rfl hne
  | cons action restarts =>
      rw [h action List.mem_cons_self, feed, BufferAction.apply]
      dsimp only
      rw [LineBuffer.flush_fst, feed_new_restarts fun action haction =>
        h action (List.mem_cons_of_mem _ haction),
        List.append_nil]

/-- At the end every log is framed to its end. -/
theorem finish_advances (h : Good actions total out) :
    ∃ last added,
      out.finish = some (last, added) ∧ Core (total ++ added) last ∧ out.history <+: last.history ∧
      (∀ digest, logTexts digest last.history = framed (actions digest)) ∧
      ∀ digest origin, origin.Once → emissions digest origin last.history ≤ 1 := by
  have hflushed : Advances (fun digest => actions digest ++ out.unfinished.flatMap fun entry =>
      if digest = entry.2 then [.restart] else []) total (out, []) (fun _ => True) out.finish :=
    Advances.foldlM (fun entry digest => if digest = entry.2 then [.restart] else [])
      (fun entry actions total lines out hgood => flushStep_advances hgood entry.2) out.unfinished h
  obtain ⟨last, added, hfinish, hlast, hprefix, -⟩ := hflushed
  refine ⟨last, added, hfinish, hlast.toCore, hprefix, fun digest => ?_,
    fun digest origin honce => ?_⟩
  · rw [hlast.logs, feed_append, ← feed_framed, ← h.buffer]
    show (feed .new (actions digest)).2 ++ (feed (out.entry digest).lines _).2 = _
    refine congrArg ((feed .new (actions digest)).2 ++ ·) ?_
    set restarts :=
      out.unfinished.flatMap fun entry => if digest = entry.2 then [BufferAction.restart] else []
      with hrestarts
    have hall : ∀ action ∈ restarts, action = .restart := by
      intro action haction
      obtain ⟨entry, -, hmem⟩ := List.mem_flatMap.mp haction
      split at hmem
      · exact List.mem_singleton.mp hmem
      · exact absurd hmem List.not_mem_nil
    cases hnumber : (out.entry digest).number with
    | some number =>
        refine feed_restarts _ hall (List.ne_nil_of_mem (a := .restart) ?_)
        exact List.mem_flatMap.mpr ⟨(number, digest), mem_unfinished hnumber,
          by rw [if_pos rfl]; exact List.mem_cons_self⟩
    | none =>
        rw [h.unnumbered digest hnumber, feed_new_restarts hall]
        rfl
  · refine (hlast.once digest origin honce).trans ?_
    cases (last.entry digest).flag origin with
    | false => exact Nat.zero_le _
    | true => exact le_rfl

end advances

/-! ### What the lines say -/

/-- Every line is its step's: the steps are numbered from one in the order in which they are
displayed, each once; no text is emitted for a step before it is displayed, or under another number;
a step with a name when it is displayed is headed by it at once; it is cached and has failed once at
most; and a line of its log is one line. -/
structure Attributed (history : List Event) : Prop where
  numbers : (displays history).map Prod.snd = List.range' 1 (displays history).length
  steps : ((displays history).map Prod.fst).Nodup
  labels : ∀ before digest number origin text after,
    history = before ++ .emitted digest number origin text :: after →
      (digest, number) ∈ displays before
  headers : ∀ before digest number name after,
    history = before ++ .displayed digest number name :: after →
    name ≠ [] → ∃ rest, after = .emitted digest number .header name :: rest
  cached : ∀ digest, emissions digest .cached history ≤ 1
  errors : ∀ digest, emissions digest .error history ≤ 1
  logLines : ∀ digest number text, .emitted digest number .log text ∈ history →
    Event.lines (.emitted digest number .log text) = [labelled number text]

end Ratect.BuildOutput
