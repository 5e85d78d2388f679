import Ratect.FitRow
import Ratect.ConsoleSafety
import Ratect.Loggers

/-! # No string reaches the terminal as a command

What each logger's `post` writes is clean, whatever the strings in its state and in the event, and
no string but a command or an error message adds a line to it. -/

namespace Ratect.Ui

/-- The writes are clean, and strings add at most `n` line breaks to them. -/
structure Safe (writes : List Write) (n : ℕ) : Prop where
  clean : ∀ write ∈ writes, Clean write.text
  added : addedBreaks writes ≤ n

theorem Safe.nil (n : ℕ) : Safe [] n := ⟨by simp, by simp⟩

theorem Safe.append {a b : List Write} {m n : ℕ} (ha : Safe a m) (hb : Safe b n) :
    Safe (a ++ b) (m + n) := by
  constructor
  · intro write hwrite
    rcases List.mem_append.mp hwrite with hwrite | hwrite
    · exact ha.clean write hwrite
    · exact hb.clean write hwrite
  · rw [addedBreaks_append]
    exact Nat.add_le_add ha.added hb.added

theorem Safe.mono {writes : List Write} {m n : ℕ} (h : Safe writes m)
    (hmn : m ≤ n) : Safe writes n :=
  ⟨h.clean, h.added.trans hmn⟩

theorem Safe.flatMap {α : Type} {items : List α} {f : α → List Write}
    (h : ∀ a ∈ items, Safe (f a) 0) : Safe (items.flatMap f) 0 := by
  induction items with
  | nil => exact .nil 0
  | cons a items ih =>
      rw [List.flatMap_cons]
      exact (h a List.mem_cons_self).append (ih fun b hb => h b (List.mem_cons_of_mem _ hb))

theorem safe_println {console : Console} {stream : Stream} {line : Text} (h : Message line) :
    Safe [console.println stream line] (breaks line) := by
  constructor
  · intro write hwrite
    rw [List.mem_singleton.mp hwrite]
    exact h.println console stream
  · rw [addedBreaks_singleton, breaks_println]

theorem safe_println_row {console : Console} {stream : Stream} {line : Text} (h : Row line) :
    Safe [console.println stream line] 0 := by
  rw [← h.breaks]
  exact safe_println h.message

theorem TaskEvent.Composed.safe {event : TaskEvent} (h : event.Composed) {console : Console}
    {write : Write} (hwrite : console.printStderrClass event = some write) :
    Safe [write] event.laidOut := by
  obtain ⟨hclean, hbreaks⟩ := h.printStderrClass console hwrite
  exact ⟨by simpa using hclean, by simpa using hbreaks⟩

/-- A line that shows a command. -/
theorem safe_command {console : Console} {stream : Stream} {before after : Text} {command : Str}
    (hbefore : Row before)
    (hafter : Row after) :
    Safe [console.println stream (before ++ console.command command ++ after)]
      (command.countP (· = '\n')) := by
  have hline : Message (before ++ console.command command ++ after) :=
    (hbefore.message.append (message_command console command)).append hafter.message
  refine (safe_println hline).mono (le_of_eq ?_)
  rw [breaks_append, breaks_append, hbefore.breaks, hafter.breaks, breaks_command,
    Nat.zero_add, Nat.add_zero]

/-! ### `simple` -/

namespace Simple

variable (rendering : Rendering) (console stderr : Console)

theorem separator_safe (state : State) : Safe (separator console state) 0 := by
  rw [separator]
  split
  · exact safe_println_row .nil
  · exact .nil 0

/-- A line of the form most of them have. -/
theorem say_safe {before after : String}
    (hbefore : before.toList.all (fun c => !isControl c) = true)
    (hafter : after.toList.all (fun c => !isControl c) = true) (value : Str) :
    Safe (say console (own before ++ console.boldStr value ++ own after)) 0 :=
  safe_println_row (((row_own hbefore).append (row_boldStr console value)).append (row_own hafter))

theorem say_safe_after {after : String} (hafter : after.toList.all (fun c => !isControl c) = true)
    (value : Str) : Safe (say console (console.boldStr value ++ own after)) 0 :=
  safe_println_row ((row_boldStr console value).append (row_own hafter))

theorem post_safe (state : State) {event : TaskEvent} (h : event.Composed) :
    Safe (post rendering console stderr state event).2 event.laidOut := by
  cases event with
  | notice message | warning message | error message => exact h.safe rfl
  | taskStarting task => exact (separator_safe console state).append (say_safe console rfl rfl task)
  | prerequisitesOnly task =>
      exact (separator_safe console state).append
        (safe_println_row (row_nothingMoreToDo console task))
  | taskFinished task exitCode duration =>
      exact safe_println_row (row_formatTaskSummary console rendering task exitCode duration)
  | taskFailed task duration =>
      exact safe_println_row (row_formatTaskFailedSummary console rendering task duration)
  | imagePullStarting name | imagePullCompleted name | imageBuildStarting name
  | imageBuildCompleted name | dependencyStarting name | dependencyStarted name =>
      exact say_safe console rfl rfl name
  | dependencyCompleted container => exact say_safe_after console rfl container
  | containerBecameHealthy container | setupCommandsCompleted container =>
      dsimp only [post, Console.printStderrClass]
      split
      · exact .nil _
      · exact say_safe_after console rfl container
  | runningSetupCommand container command index total runIn =>
      dsimp only [post, Console.printStderrClass]
      split
      · exact .nil _
      · simp only [say, List.append_assoc]
        simp only [← List.append_assoc (own "Running setup command ") (console.command command)]
        refine safe_command (row_own rfl) ?_
        refine (row_own rfl).append
          ((row_number index).append ((row_own rfl).append ((row_number total).append
          ((row_own rfl).append (Pieces.append ?_ (row_own rfl))))))
        cases runIn with
        | none => exact row_boldStr console container
        | some runIn =>
            exact (row_boldStr console runIn).append
              ((row_own rfl).append (row_boldStr console container))
  | dependencyExitedUnexpectedly container exitCode =>
      exact safe_println_row ((((row_boldStr console container).append (row_own rfl)).append
        (row_exitedUnexpectedly console exitCode)).append (row_own rfl))
  | runningTaskContainer container command =>
      cases command with
      | none => exact say_safe console rfl rfl container
      | some command =>
          dsimp only [post, Console.printStderrClass, say]
          rw [List.append_assoc, List.append_assoc (own "Running " ++ console.command command)]
          exact safe_command (row_own rfl)
            ((row_own rfl).append ((row_boldStr console container).append (row_own rfl)))
  | cleanupStarting cause =>
      dsimp only [post, Console.printStderrClass, fireOnce]
      split
      · exact (safe_println_row .nil).append (safe_println_row (row_cleaningUp console cause))
      · exact .nil _
  | _ => exact .nil _

end Simple

/-! ### `all` -/

namespace Interleaved

variable (rendering : Rendering) (console stderr result : Console)

theorem safe_printlnEnding {on : Console} {stream : Stream} {line : Text} (h : Message line)
    {ending : Glyph} (hending : Harmless ending) :
    Safe [on.printlnEnding stream line ending] (breaks line + breaks [ending]) := by
  constructor
  · intro write hwrite
    rw [List.mem_singleton.mp hwrite]
    exact (h.clean.append (.glyph hending .nil)).print on stream
  · rw [addedBreaks_singleton, Console.printlnEnding, breaks_print, breaks_append]

/-- The lines of a text under a heading: only the breaks of the text and its ending are added. -/
theorem headed_safe {on : Console} {stream : Stream} {heading : Text} (hheading : Row heading)
    {text : Text} (h : Message text) {ending : Glyph} (hending : Harmless ending) :
    Safe ((splitLines Glyph.isBreak text).map fun line =>
      on.printlnEnding stream (heading ++ line.1) (line.2.getD ending))
        (breaks text + breaks [ending]) := by
  induction hn : text.length using Nat.strong_induction_on generalizing text with
  | _ n ih =>
      rcases no_break_or_first Glyph.isBreak text with hnone | ⟨a, g, b, rfl, ha, hg⟩
      · rw [splitLines_of_no_break hnone]
        refine (safe_printlnEnding (hheading.message.append h) hending).mono (le_of_eq ?_)
        rw [breaks_append, hheading.breaks, Nat.zero_add]
      · have hbreak : g.char = '\n' := by simpa [Glyph.isBreak] using hg
        obtain ⟨hleft, hPg, hright⟩ := h.split fun s hs hmem => hs.no_break hmem hbreak
        have hlength : b.length < n := by
          simp only [List.length_append, List.length_cons] at hn
          omega
        have hrest := ih b.length hlength hright rfl
        rw [splitLines_break ha hg, List.map_cons]
        refine ((safe_printlnEnding (hheading.message.append hleft) hPg).append hrest).mono ?_
        have hcons : breaks (g :: b) = breaks [g] + breaks b := breaks_append [g] b
        rw [breaks_append, hheading.breaks, breaks_append, hcons]
        omega

/-- A text under the prefix of a name. -/
theorem printPrefixed_safe (on : Console) (stream : Stream) (state : State) (name : Str)
    (color : Option Color) {text : Text} (h : Message text) {ending : Glyph}
    (hending : Harmless ending) :
    Safe (printPrefixed rendering on stream state name color text ending)
      (breaks text + breaks [ending]) := by
  have hpadding : ∀ n, Row (own (String.ofList (List.replicate n ' '))) := by
    intro n
    apply row_own
    simp only [String.toList_ofList, List.all_replicate]
    split <;> rfl
  have hpadded :=
    (row_toText name).append (hpadding (state.prefixWidth - shownWidth rendering name))
  have hbar : Row (own " | ") := row_own rfl
  cases color with
  | none => exact headed_safe ((hpadded.bold on).append hbar) h hending
  | some color => exact headed_safe ((hpadded.boldColored on color).append hbar) h hending

theorem newline_harmless : Harmless newline := fun _ => .inl rfl

theorem printForContainer_safe (state : State) (container : Str) {line : Text} (h : Message line) :
    Safe (printForContainer rendering console state container line) (breaks line) :=
  printPrefixed_safe rendering console .progress state container _ h newline_harmless

theorem printForContainer_row (state : State) (container : Str) {line : Text} (h : Row line) :
    Safe (printForContainer rendering console state container line) 0 := by
  have := printForContainer_safe rendering console state container h.message
  rwa [h.breaks] at this

theorem printForTask_row (state : State) {line : Text} (h : Row line) :
    Safe (printForTask rendering console state line) 0 := by
  have :=
    printPrefixed_safe rendering console .progress state (state.task.getD [])
      none h.message newline_harmless
  rwa [h.breaks] at this

theorem flushPreambleIfPending_safe (state : State) :
    Safe (flushPreambleIfPending rendering console state).2 0 := by
  rw [flushPreambleIfPending]
  split
  · exact printForTask_row rendering console state
      (((row_own rfl).append (row_boldStr console _)).append (row_own rfl))
  · exact .nil 0

/-- A line that shows a command. -/
theorem printForContainer_command (state : State) (container : Str) {before after : Text}
    {command : Str} (hbefore : Row before) (hafter : Row after) :
    Safe (printForContainer rendering console state container
      (before ++ console.command command ++ after))
      (command.countP (· = '\n')) := by
  have h := printForContainer_safe rendering console state container
    ((hbefore.message.append (message_command console command)).append hafter.message)
  rwa [breaks_append, breaks_append, hbefore.breaks, hafter.breaks, breaks_command,
    Nat.zero_add, Nat.add_zero] at h

/-- The line breaks of a build's message, which the lines it is printed as keep. -/
theorem buildProgress_safe (state : State) (container message : Str) :
    Safe ((splitLines (· = '\n') message).flatMap fun line =>
      printPrefixed rendering console .progress state container (lookup state.colors container)
        (own "Image build | " ++ Text.ofStr line.1) ((line.2.map (⟨·, false⟩)).getD newline))
      (message.countP (· = '\n')) := by
  have hline : ∀ line ending,
      Harmless ending → Safe (printPrefixed rendering console .progress state container
      (lookup state.colors container) (own "Image build | " ++ Text.ofStr line) ending)
      (line.countP (· = '\n') + breaks [ending]) := by
    intro line ending hending
    have htag : Row (own "Image build | ") := row_own rfl
    have h :=
      printPrefixed_safe rendering console .progress state container (lookup state.colors container)
      (htag.message.append (message_ofStr line)) hending
    rwa [breaks_append, breaks_own, breaks_escapeControls, Nat.zero_add] at h
  induction hn : message.length using Nat.strong_induction_on generalizing message with
  | _ n ih =>
      rcases no_break_or_first (· = '\n') message with hnone | ⟨a, c, b, rfl, ha, hc⟩
      · rw [splitLines_of_no_break hnone, List.flatMap_singleton]
        exact hline message newline newline_harmless
      · obtain rfl : c = '\n' := by simpa using hc
        have hlength : b.length < n := by
          simp only [List.length_append, List.length_cons] at hn
          omega
        rw [splitLines_break ha hc, List.flatMap_cons]
        refine ((hline a ⟨'\n', false⟩ fun _ => .inl rfl).append (ih b.length hlength b rfl)).mono
          ?_
        have hbreak : breaks [⟨'\n', false⟩] = 1 := rfl
        rw [hbreak, List.countP_append, List.countP_cons]
        simp only [decide_true, if_true]
        omega

/-- The line breaks in a build's message. -/
def buildLines : TaskEvent → ℕ
  | .imageBuildProgress _ message => message.countP (· = '\n')
  | _ => 0

theorem post_safe (state : State) {event : TaskEvent} (houtput : event.isOutput = false)
    (h : event.Composed) :
    Safe (post rendering console stderr result state event).2
      (event.laidOut + buildLines event) := by
  cases event with
  | notice message | warning message | error message => exact h.safe rfl
  | containerOutput container line | setupCommandOutput container index line => cases houtput
  | taskGraphResolved containers => exact flushPreambleIfPending_safe rendering console _
  | runEnded task => exact flushPreambleIfPending_safe rendering console state
  | prerequisitesOnly task =>
      exact printForTask_row rendering console _ (row_nothingMoreToDo console task)
  | taskFinished task exitCode duration =>
      exact printForTask_row rendering console state
        (row_formatTaskSummary console rendering task exitCode duration)
  | taskFailed task duration =>
      exact printForTask_row rendering console state
        (row_formatTaskFailedSummary console rendering task duration)
  | imagePullStarting image | imagePullCompleted image =>
      refine Safe.flatMap fun container _ =>
        printForContainer_row rendering console state container ?_
      exact ((row_own rfl).append (row_boldStr console image)).append (row_own rfl)
  | imageBuildProgress tag message =>
      dsimp only [post, Console.printStderrClass]
      split
      · next container _ =>
          exact (buildProgress_safe rendering console state container message).mono
            (Nat.le_add_left _ _)
      · exact .nil _
  | imageBuildStarting container | imageBuildCompleted container | dependencyStarting container
    | dependencyStarted container | containerBecameHealthy container | dependencyCompleted container
    | setupCommandsCompleted container | containerStopped container | containerRemoved container =>
      exact printForContainer_row rendering console state container (row_own rfl)
  | removingNetwork | networkRemoved => exact printForTask_row rendering console state (row_own rfl)
  | runningSetupCommand container command index total runIn =>
      dsimp only [post, Console.printStderrClass]
      simp only [List.append_assoc]
      simp only [← List.append_assoc (own "Running setup command ") (console.command command)]
      refine printForContainer_command rendering console state container (row_own rfl) ?_
      refine (row_own rfl).append
        ((row_number index).append ((row_own rfl).append ((row_number total).append
        ((row_own rfl).append (Pieces.append ?_ (row_own rfl))))))
      cases runIn with
      | none => exact .nil
      | some runIn => exact (row_own rfl).append (row_toText runIn)
  | dependencyExitedUnexpectedly container exitCode =>
      exact printForContainer_row rendering console state container
        ((row_exitedUnexpectedly console exitCode).append (row_own rfl))
  | runningTaskContainer container command =>
      cases command with
      | none => exact printForContainer_row rendering console state container (row_own rfl)
      | some command =>
          exact printForContainer_command rendering console state container
            (row_own rfl) (row_own rfl)
  | cleanupStarting cause =>
      dsimp only [post, Console.printStderrClass, fireOnce]
      split
      · exact printForTask_row rendering console state (row_cleaningUp console cause)
      · exact .nil _
  | _ => exact .nil _

end Interleaved

/-! ### `fancy`: rows -/

namespace Fancy

theorem row_namesList (console : Console) (names : List Str) : Row (namesList console names) := by
  have hnames : ∀ name ∈ names.map console.boldStr, Row name := by
    intro name hname
    obtain ⟨value, -, rfl⟩ := List.mem_map.mp hname
    exact row_boldStr console value
  rw [namesList]
  split
  · exact .nil
  · next last hlast =>
      have hlast : Row last := hnames last (List.mem_of_getLast? hlast)
      split
      · exact hlast
      · refine (Pieces.append ?_ (row_own rfl)).append hlast
        exact row_join (fun name hname => hnames name (List.mem_of_mem_dropLast hname)) rfl

theorem message_description (console : Console) (line : ContainerLine) :
    Message (line.description console) := by
  rw [ContainerLine.description]
  split
  · split
    · exact ((row_own rfl).append (row_boldStr console _)).message
    · exact (row_own rfl).message
    · exact (row_own rfl).message
  · split
    · exact (((row_own rfl).append (row_boldStr console _)).append (row_own rfl)).message
    · exact (row_own rfl).message
  · split
    · exact ((((row_own rfl).append (row_boldStr console _)).append (row_own rfl)).append
        (row_toText _)).message
    · exact ((row_own rfl).append (row_toText _)).message
  · exact (row_own rfl).message
  · exact ((row_own rfl).append (row_toText _)).message
  · exact (row_own rfl).message
  · exact (row_own rfl).message
  · split
    · exact (row_own rfl).message
    · refine Pieces.message (Pieces.append
        (Pieces.append (Pieces.append (Pieces.append (row_own rfl) ?_)
        (row_own rfl)) (row_namesList console _)) (row_own rfl))
      split <;> exact row_own rfl
  · exact (row_own rfl).message
  · exact (row_own rfl).message
  · exact (row_own rfl).message
  · next command index total runIn _ =>
      dsimp only
      have hcommand : Message (own "running setup command " ++ console.command command) :=
        (row_own rfl).message.append (message_command console command)
      refine Pieces.append (Pieces.append
        (Pieces.append (Pieces.append (Pieces.append (Pieces.append
        (hcommand.append (row_own rfl).message) (row_number index).message) (row_own rfl).message)
        (row_number total).message) (row_own rfl).message) ?_) (row_own rfl).message
      cases runIn with
      | none => exact .nil
      | some runIn => exact ((row_own rfl).append (row_boldStr console runIn)).message
  · exact (row_own rfl).message
  · exact (row_own rfl).message.append (message_command console _)
  · exact (row_own rfl).message
  · exact (row_exitedUnexpectedly console _).message

theorem message_render (console : Console) (line : ContainerLine) : Message (line.render console) :=
  ((row_boldStr console _).append (row_own rfl)).message.append (message_description console line)

theorem row_cleanupText (console : Console) (state : State) : Row (cleanupText console state) := by
  rw [cleanupText]
  split
  · dsimp only
    refine Pieces.append (Pieces.append (Pieces.append (Pieces.append (Pieces.append (Pieces.append
      (row_own rfl) (row_number _)) (row_own rfl)) ?_) (row_own rfl)) (row_namesList console _))
        (row_own rfl)
    split
    · exact .nil
    · exact row_own rfl
  · split <;> exact row_own rfl

/-! A row that is fitted stays one -/

/-- Line breaks and tabs gone, a message is a row. -/
theorem row_flat {text : Text} (h : Message text) :
    Row (text.map fun g => { g with char := flat g.char }) := by
  induction h with
  | nil => exact .nil
  | @glyph g text hg _ ih =>
      refine .glyph ?_ ih
      show isControl (flat g.char) = false
      rw [flat]
      split_ifs with hflat
      · rfl
      · by_contra hcontrol
        rcases hg (by simpa using hcontrol) with h | h
        · exact hflat (.inl h)
        · exact hflat (.inr (.inr h))
  | @sequence s text hs _ ih =>
      have hsame : s.map (fun g => { g with char := flat g.char }) = s := by
        conv_rhs => rw [← List.map_id s]
        apply List.map_congr_left
        intro g hg
        obtain ⟨code, hcode, rfl⟩ := hs
        obtain ⟨c, hc, rfl⟩ := List.mem_map.mp hg
        have hflat : flat c = c := by
          simp only [List.cons_append, List.mem_cons, List.mem_append,
            List.not_mem_nil, or_false] at hc
          rcases hc with rfl | rfl | hc | rfl
          · rfl
          · rfl
          · rw [flat, if_neg]
            rintro (rfl | rfl | rfl) <;> rcases hcode _ hc with h | h <;> cases h
          · rfl
        rw [hflat, id]
      rw [List.map_append, hsame]
      exact .sequence hs ih

theorem row_clipFrom (charWidth : Char → ℕ) (keep : ℕ) {text : Text} (h : Row text) {clip : Clip}
    (hout : Row clip.out)
    (hheld : Row clip.held) :
    Row (clipFrom charWidth keep false clip text).out ∧
      Row (clipFrom charWidth keep false clip text).held := by
  induction h generalizing clip with
  | nil => exact ⟨hout, hheld⟩
  | @glyph g text hg _ ih =>
      have hescape : g.char ≠ '\x1b' := by
        intro hescape
        rw [Printable, hescape] at hg
        revert hg
        decide
      rw [clipFrom, if_neg hescape]
      split
      · exact ⟨hout, hheld⟩
      · exact ih ((hout.append hheld).append (.glyph hg .nil)) .nil
  | @sequence s text hs _ ih =>
      rw [clipFrom_sgr (isSgr_of_sgr hs)]
      exact ih hout (hheld.append (.of_sequence hs))

theorem row_clipToWidth (charWidth : Char → ℕ) {text : Text} (h : Row text) (width : Option ℕ) :
    Row (clipToWidth charWidth text width) := by
  cases width with
  | none => exact h
  | some width =>
      rw [clipToWidth]
      split
      · exact h
      · have hfrom := @row_clipFrom charWidth (width - 3) text h ⟨[], [], false, 0⟩ .nil .nil
        obtain ⟨hout, hheld⟩ := hfrom
        have hclipped : Row (if (clipFrom charWidth (width - 3) false
            ⟨[], [], false, 0⟩ text).keptAny then
            (clipFrom charWidth (width - 3) false ⟨[], [], false, 0⟩ text).out ++ own "..." ++
              (clipFrom charWidth (width - 3) false ⟨[], [], false, 0⟩ text).held
          else
            (clipFrom charWidth (width - 3) false ⟨[], [], false, 0⟩ text).out ++
              (clipFrom charWidth (width - 3) false ⟨[], [], false, 0⟩ text).held ++
                (own "...").take (min width 3)) := by
          split
          · exact (hout.append (row_own rfl)).append hheld
          · exact (hout.append hheld).append
              (.of_glyphs fun g hg => own_printable rfl (List.mem_of_mem_take hg))
        dsimp only
        split
        · split
          · exact hclipped
          · exact hclipped.append (.of_sequence (sgr_of_code rfl))
        · exact hclipped

theorem row_fitRow (charWidth : Char → ℕ) {text : Text} (h : Message text) (width : Option ℕ) :
    Row (fitRow charWidth text width) := row_clipToWidth charWidth (row_flat h) width

/-! Painting -/

theorem clean_clearRow : Clean clearRow := by
  have hsplit : clearRow = own "\r" ++ own "\x1b[2K" := rfl
  rw [hsplit]
  exact .sequence (.inr (.inl rfl)) (.of_sequence (.inr (.inr (.inl rfl))))

theorem clean_cursorUp (n : ℕ) : Clean (cursorUp n) := .of_sequence (.inr (.inr (.inr ⟨n, rfl⟩)))

theorem clean_break : Clean (own "\n") := .of_glyphs fun g hg => by
  rw [List.mem_singleton.mp hg]
  exact fun _ => .inl rfl

/-- Text that is clean, with no line break from a string. -/
theorem safe_print {console : Console} {stream : Stream} {text : Text} (h : Clean text)
    (hbreaks : breaks text = 0) : Safe [console.print stream text] 0 := by
  constructor
  · intro write hwrite
    rw [List.mem_singleton.mp hwrite]
    exact h.print console stream
  · rw [addedBreaks_singleton, breaks_print, hbreaks]

section paint

variable (rendering : Rendering) (console stderr : Console)
    (stderrOnScreen : Bool) (width : Option ℕ)

theorem repaintStartup_safe (state : State) :
    Safe (repaintStartup rendering console width state).2 0 := by
  rw [repaintStartup]
  split
  · exact .nil 0
  · dsimp only
    split
    · exact .nil 0
    · have hrow : ∀ line : ContainerLine,
          Row (fitRow rendering.charWidth (line.render console) width) :=
        fun line => row_fitRow rendering.charWidth (message_render console line) width
      have hlead : Clean (if 0 < state.paintedLines then
            if state.paintedWidth = width then cursorUp state.paintedLines else own "\n"
          else []) ∧ breaks (if 0 < state.paintedLines then
            if state.paintedWidth = width then cursorUp state.paintedLines else own "\n"
          else []) = 0 := by
        split_ifs
        · exact ⟨clean_cursorUp _, breaks_own _⟩
        · exact ⟨clean_break, breaks_own _⟩
        · exact ⟨.nil, rfl⟩
      refine safe_print (hlead.1.append (Pieces.flatMap fun line _ => ?_)) ?_
      · exact (clean_clearRow.append (hrow line).message.clean).append clean_break
      · rw [breaks_append, hlead.2, Nat.zero_add]
        apply breaks_flatMap
        intro line
        rw [breaks_append, breaks_append, (hrow line).breaks, clearRow, breaks_own, breaks_own]

theorem repaintCleanup_safe (state : State) :
    Safe (repaintCleanup rendering console width state).2 0 := by
  have hrow := row_fitRow rendering.charWidth (row_cleanupText console state).message width
  have hlead : Clean (if state.cleanupShown then
        if state.cleanupWidth = width then cursorUp 1 ++ clearRow else own "\n"
      else own "\n") ∧ breaks (if state.cleanupShown then
        if state.cleanupWidth = width then cursorUp 1 ++ clearRow else own "\n"
      else own "\n") = 0 := by
    split_ifs
    · exact ⟨(clean_cursorUp 1).append clean_clearRow, rfl⟩
    · exact ⟨clean_break, rfl⟩
    · exact ⟨clean_break, rfl⟩
  refine safe_print ((hlead.1.append hrow.message.clean).append clean_break) ?_
  rw [breaks_append, breaks_append, hlead.2, hrow.breaks, breaks_own]

theorem clearCleanupLine_safe (state : State) :
    Safe (clearCleanupLine console width state).2 0 := by
  rw [clearCleanupLine]
  split
  · dsimp only
    split
    · exact safe_print ((clean_cursorUp 1).append clean_clearRow) rfl
    · exact safe_println_row .nil
  · exact .nil 0

theorem paySeparator_safe (state : State) : Safe (paySeparator console state).2 0 := by
  rw [paySeparator]
  dsimp only
  split
  · exact safe_println_row .nil
  · exact .nil 0

theorem andThen_safe {first : State × List Write} {next : State → State × List Write} {n : ℕ}
    (hfirst : Safe first.2 n) (hnext : ∀ state, Safe (next state).2 0) :
    Safe (andThen first next).2 n :=
  hfirst.append (hnext first.1)

theorem summarize_safe (state : State) {summary : Text} (h : Row summary) :
    Safe (summarize console width state summary).2 0 := by
  rw [summarize]
  refine andThen_safe ?_ fun state => safe_println_row h
  exact andThen_safe (clearCleanupLine_safe console width state) (paySeparator_safe console)

theorem startTask_safe (printedATask : Bool) {line : Text} (h : Row line) :
    Safe (startTask console printedATask line) 0 := by
  rw [startTask]
  split
  · exact (safe_println_row .nil).append (safe_println_row h)
  · exact (Safe.nil 0).append (safe_println_row h)

theorem post_safe (state : State) {event : TaskEvent} (h : event.Composed) :
    Safe (post rendering console stderr stderrOnScreen width state event).2 event.laidOut := by
  cases event with
  | notice message | warning message | error message =>
      refine andThen_safe (h.safe rfl) fun state => ?_
      split
      · split
        · exact repaintCleanup_safe rendering console width _
        · exact .nil 0
      · exact .nil 0
  | taskStarting task =>
      exact startTask_safe console
        _ (((row_own rfl).append (row_boldStr console task)).append (row_own rfl))
  | prerequisitesOnly task => exact startTask_safe console _ (row_nothingMoreToDo console task)
  | taskGraphResolved containers => exact repaintStartup_safe rendering console width _
  | taskFinished task exitCode duration =>
      exact summarize_safe console width state
        (row_formatTaskSummary console rendering task exitCode duration)
  | taskFailed task duration =>
      exact summarize_safe console width state
        (row_formatTaskFailedSummary console rendering task duration)
  | dependencyExitedUnexpectedly container exitCode =>
      dsimp only [post, Console.printStderrClass]
      split
      · exact repaintStartup_safe rendering console width _
      · have hrow : Row (toText container ++ own " " ++
            console.exitedUnexpectedly exitCode ++ own ".") :=
          (((row_toText container).append (row_own rfl)).append
            (row_exitedUnexpectedly console exitCode)).append
            (row_own rfl)
        refine andThen_safe (safe_println_row hrow) fun state => ?_
        split
        · exact repaintCleanup_safe rendering console width _
        · exact .nil 0
  | containerCreated container =>
      dsimp only [post, Console.printStderrClass]
      refine andThen_safe ?_ fun state => .nil 0
      split
      · exact repaintStartup_safe rendering console width _
      · exact .nil 0
  | runningTaskContainer container command =>
      dsimp only [post, Console.printStderrClass]
      split
      · refine Safe.mono (m := 0) ?_ (Nat.zero_le _)
        refine andThen_safe (repaintStartup_safe rendering console width _) fun state => ?_
        exact safe_println_row .nil
      · exact .nil _
  | runEnded task => exact .nil 0
  | cleanupStarting cause => exact repaintCleanup_safe rendering console width _
  | containerRemoved container | removingNetwork =>
      dsimp only [post, Console.printStderrClass]
      split
      · exact repaintCleanup_safe rendering console width _
      · exact .nil _
  | cleanupFinished => exact clearCleanupLine_safe console width _
  | _ =>
      dsimp only [post, Console.printStderrClass]
      refine Safe.mono (m := 0) ?_ (Nat.zero_le _)
      split
      · split
        · exact repaintStartup_safe rendering console width _
        · exact .nil 0
      · exact .nil 0

end paint

end Fancy

/-! ### All three -/

/-- The writes show no control character but line breaks and tabs once the program's own sequences
are taken out, and strings add at most `n` lines to them. -/
def Shown (writes : List Write) (n : ℕ) : Prop :=
  (∀ write ∈ writes, ∀ g ∈ strip false write.text,
    isControl g.char = true → g.char = '\n' ∨ g.char = '\t') ∧
    addedBreaks writes ≤ n

theorem Safe.shown {writes : List Write} {n : ℕ} (h : Safe writes n) : Shown writes n :=
  ⟨fun write hwrite => (h.clean write hwrite).strip, h.added⟩

/-- Whatever a logger has seen and whatever strings an event holds, the logger shows no control
character of theirs.  A string adds lines only as a command, an error message or, in `all`, a
build's message. -/
theorem no_terminal_injection (rendering : Rendering) (console stderr result : Console)
    (stderrOnScreen : Bool) (width : Option ℕ) (event : TaskEvent)
    (houtput : event.isOutput = false) (h : event.Composed) :
    (∀ state, Shown (Simple.post rendering console stderr state event).2 event.laidOut) ∧
      (∀ state, Shown (Interleaved.post rendering console stderr result state event).2
        (event.laidOut + Interleaved.buildLines event)) ∧
      ∀ state, Shown (Fancy.post rendering console stderr stderrOnScreen width state event).2
        event.laidOut := by
  refine ⟨fun state => ?_, fun state => ?_, fun state => ?_⟩
  · exact (Simple.post_safe rendering console stderr state h).shown
  · exact (Interleaved.post_safe rendering console stderr result state houtput h).shown
  · exact (Fancy.post_safe rendering console stderr stderrOnScreen width state h).shown

/-- Names and characters one column wide, and a map gone through in the order it was filled. -/
def plainRendering : Rendering where
  formatDuration _ := "1s".toList
  charWidth _ := 1
  strWidth := List.length
  hashOrder entries := entries

/-- A container named after an escape sequence, which a coloured `all` logger only prints. -/
theorem no_terminal_injection_name :
    TaskEvent.isOutput (.dependencyStarted "\x1b[2J".toList) = false ∧
      Shown (Interleaved.post plainRendering ⟨true, true⟩ ⟨true, true⟩ ⟨false, false⟩ .default
        (.dependencyStarted "\x1b[2J".toList)).2 0 :=
  ⟨rfl, (no_terminal_injection plainRendering ⟨true, true⟩ ⟨true, true⟩ ⟨false, false⟩ true none
    (.dependencyStarted "\x1b[2J".toList) rfl trivial).2.1 .default⟩

/-- Two lines of one build message are two lines of the `all` logger. -/
theorem build_message_adds_line :
    let console : Console := ⟨false, false⟩
    let state := (Interleaved.post plainRendering console console console .default
      (.taskGraphResolved [⟨"app".toList, none, some "tag".toList, [], false, true⟩])).1
    let event := TaskEvent.imageBuildProgress "tag".toList "a\nb".toList
    event.isOutput = false ∧ event.Composed ∧
      ¬ Shown (Interleaved.post plainRendering console console console state event).2
        event.laidOut := by
  refine ⟨rfl, trivial, fun h => ?_⟩
  exact absurd h.2 (by decide +kernel)

end Ratect.Ui
