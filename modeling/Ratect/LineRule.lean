import Ratect.LineBuffer

/-! # The rule of raw lines

The rule that `LineBuffer` documents (`ui/interleaved.rs`), on the whole stream: the stream is cut
into lines at each `\n`, each CRLF and each lone `\r` (`Cuts`, which every stream is), and a line is
emitted by its content, its end, and the lines since the last `\n` or CRLF (`isEmitted`).  However a
stream is cut into chunks, the buffer emits these lines (`line_framing`). -/

namespace Ratect.LineBuffer

/-! ### The rule -/

/-- Where a line ends. -/
inductive LineEnd where
  | newline
  | crlf
  | loneCr
  | endOfStream
deriving DecidableEq, Repr

/-- A line of the stream. -/
structure RawLine where
  content : List UInt8
  ending : LineEnd
deriving DecidableEq

/-- Nothing in the content ends a line. -/
def Plain (content : List UInt8) : Prop := newline ∉ content ∧ carriageReturn ∉ content

/-- The lines of a stream, the last of which ends with it. -/
inductive Cuts : List UInt8 → List RawLine → Prop
  | endOfStream {content : List UInt8} : Plain content → Cuts content [⟨content, .endOfStream⟩]
  | newline {content rest : List UInt8} {lines : List RawLine} :
      Plain content → Cuts rest lines →
        Cuts (content ++ newline :: rest) (⟨content, .newline⟩ :: lines)
  | crlf {content rest : List UInt8} {lines : List RawLine} :
      Plain content → Cuts rest lines →
      Cuts (content ++ carriageReturn :: newline :: rest) (⟨content, .crlf⟩ :: lines)
  | loneCr {content rest : List UInt8} {lines : List RawLine} :
      Plain content → rest.head? ≠ some LineBuffer.newline → Cuts rest lines →
      Cuts (content ++ carriageReturn :: rest) (⟨content, .loneCr⟩ :: lines)

/-- A line that ends at `\n` or CRLF. -/
def RawLine.endsAtNewline (line : RawLine) : Bool := line.ending = .newline || line.ending = .crlf

/-- A line with content that ends at a lone `\r`. -/
def RawLine.endsAtLoneCr (line : RawLine) : Bool := line.ending = .loneCr && line.content ≠ []

/-- A lone `\r` has ended a line since the last `\n` or CRLF. -/
def loneCrSinceNewline (before : List RawLine) : Bool :=
  (before.reverse.takeWhile fun line => !line.endsAtNewline).any RawLine.endsAtLoneCr

/-- What is emitted: a line with content, and an empty one that ends at `\n` or CRLF unless a lone
`\r` has ended a line since the last of these. -/
def isEmitted (before : List RawLine) (line : RawLine) : Bool :=
  line.content ≠ [] || line.endsAtNewline && !loneCrSinceNewline before

/-- The texts of the lines that are emitted, after some lines. -/
def emittedAfter : List RawLine → List RawLine → List Text
  | _, [] => []
  | before, line :: lines =>
      (if isEmitted before line then [fromUtf8Lossy line.content] else []) ++
        emittedAfter (before ++ [line]) lines

/-- What `push` on each chunk and then `flush` emit. -/
def pushAll : LineBuffer → List (List UInt8) → List Text
  | buffer, [] => buffer.flush.2
  | buffer, chunk :: chunks => (buffer.push chunk).2 ++ pushAll (buffer.push chunk).1 chunks

/-! ### The lines of a stream -/

theorem Plain.cons {byte : UInt8} {content : List UInt8} (hnewline : byte ≠ newline)
    (hreturn : byte ≠ carriageReturn) (h : Plain content) : Plain (byte :: content) :=
  ⟨List.not_mem_cons_of_ne_of_not_mem hnewline.symm h.1,
    List.not_mem_cons_of_ne_of_not_mem hreturn.symm h.2⟩

theorem plain_nil : Plain [] := ⟨List.not_mem_nil, List.not_mem_nil⟩

/-- A byte that ends no line joins the first one. -/
theorem Cuts.cons {byte : UInt8} {bytes : List UInt8} {lines : List RawLine} (h : Cuts bytes lines)
    (hnewline : byte ≠ LineBuffer.newline) (hreturn : byte ≠ carriageReturn) :
    ∃ lines, Cuts (byte :: bytes) lines := by
  cases h with
  | endOfStream hplain => exact ⟨_, .endOfStream (hplain.cons hnewline hreturn)⟩
  | newline hplain hrest => exact ⟨_, .newline (hplain.cons hnewline hreturn) hrest⟩
  | crlf hplain hrest => exact ⟨_, .crlf (hplain.cons hnewline hreturn) hrest⟩
  | loneCr hplain hhead hrest => exact ⟨_, .loneCr (hplain.cons hnewline hreturn) hhead hrest⟩

/-- Every stream is cut into lines. -/
theorem exists_cuts (bytes : List UInt8) : ∃ lines, Cuts bytes lines := by
  induction hlength : bytes.length using Nat.strong_induction_on generalizing bytes with
  | _ n ih =>
      cases bytes with
      | nil => exact ⟨_, .endOfStream plain_nil⟩
      | cons byte rest =>
          obtain ⟨lines, hlines⟩ := ih rest.length (by rw [← hlength]; simp) rest rfl
          by_cases hnewline : byte = newline
          · subst hnewline
            exact ⟨_, .newline plain_nil hlines⟩
          · by_cases hreturn : byte = carriageReturn
            · subst hreturn
              by_cases hhead : rest.head? = some newline
              · obtain ⟨tail, rfl⟩ := List.head?_eq_some_iff.mp hhead
                obtain ⟨lines', hlines'⟩ := ih tail.length (by rw [← hlength]; simp) tail rfl
                exact ⟨_, .crlf plain_nil hlines'⟩
              · exact ⟨_, .loneCr plain_nil hhead hlines⟩
            · exact hlines.cons hnewline hreturn

/-! ### What the buffer does -/

/-- What a buffer emits for the rest of the stream. -/
def finish (buffer : LineBuffer) (rest : List UInt8) : List Text :=
  (buffer.push rest).2 ++ (buffer.push rest).1.flush.2

theorem finish_append (buffer : LineBuffer) (a b : List UInt8) :
    buffer.finish (a ++ b) = (buffer.push a).2 ++ (buffer.push a).1.finish b := by
  unfold finish
  rw [push_append, List.append_assoc]

theorem finish_cons (buffer : LineBuffer) (byte : UInt8) (rest : List UInt8) :
    buffer.finish (byte :: rest) =
      (buffer.pushByte byte).2 ++ (buffer.pushByte byte).1.finish rest := by
  unfold finish
  rw [push, List.append_assoc]

/-- Chunks do not matter. -/
theorem pushAll_eq (buffer : LineBuffer) (chunks : List (List UInt8)) :
    buffer.pushAll chunks = buffer.finish chunks.flatten := by
  induction chunks generalizing buffer with
  | nil => rfl
  | cons chunk chunks ih => rw [pushAll, ih, List.flatten_cons, finish_append]

/-- Content that ends no line is kept. -/
theorem push_plain {content : List UInt8} (h : Plain content) (pending : List UInt8)
    (after : Bool) :
    push ⟨pending, false, after⟩ content = (⟨pending ++ content, false, after⟩, []) := by
  induction content generalizing pending with
  | nil => rw [push, List.append_nil]
  | cons byte content ih =>
      obtain ⟨hnewline, hreturn⟩ := h
      rw [List.mem_cons, not_or] at hnewline hreturn
      have hbyte : pushByte ⟨pending, false, after⟩ byte =
          (⟨pending ++ [byte], false, after⟩, []) := by
        unfold pushByte take
        rw [if_neg Bool.false_ne_true, if_neg (Ne.symm hreturn.1), if_neg (Ne.symm hnewline.1)]
      rw [push, hbyte]
      dsimp only
      rw [ih ⟨hnewline.2, hreturn.2⟩, List.append_assoc]
      rfl

/-- What a line that has ended emits, by whether a lone `\r` has ended one before. -/
def emitted (content : List UInt8) (emits : Bool) : List Text :=
  if emits then [fromUtf8Lossy content] else []

theorem endAtNewline_eq (content : List UInt8) (after : Bool) :
    endAtNewline ⟨content, false, after⟩ = (new, emitted content (content ≠ [] || !after)) := by
  unfold endAtNewline emitted
  cases content with
  | nil => cases after <;> rfl
  | cons byte content => cases after <;> rfl

theorem endAtLoneCr_eq (content : List UInt8) (after : Bool) :
    endAtLoneCr ⟨content, false, after⟩ =
      (⟨[], false, after || content ≠ []⟩, emitted content (content ≠ [])) := by
  unfold endAtLoneCr emitted
  cases content with
  | nil => cases after <;> rfl
  | cons byte content => cases after <;> rfl

theorem finish_newline {content : List UInt8} (h : Plain content) (rest : List UInt8)
    (after : Bool) :
    finish ⟨[], false, after⟩ (content ++ newline :: rest) =
      emitted content (content ≠ [] || !after) ++ new.finish rest := by
  have hbyte : pushByte ⟨content, false, after⟩ newline =
      endAtNewline ⟨content, false, after⟩ := rfl
  rw [finish_append, push_plain h, List.nil_append, List.nil_append, finish_cons,
    hbyte, endAtNewline_eq]

theorem finish_crlf {content : List UInt8} (h : Plain content) (rest : List UInt8) (after : Bool) :
    finish ⟨[], false, after⟩ (content ++ carriageReturn :: newline :: rest) =
      emitted content (content ≠ [] || !after) ++ new.finish rest := by
  have hreturn : pushByte ⟨content, false, after⟩ carriageReturn =
      (⟨content, true, after⟩, []) := rfl
  have hbyte : pushByte ⟨content, true, after⟩ newline = endAtNewline ⟨content, false, after⟩ := rfl
  rw [finish_append, push_plain h, List.nil_append, List.nil_append, finish_cons,
    hreturn, List.nil_append, finish_cons, hbyte, endAtNewline_eq]

/-- A carriage return that no line feed follows ends the line, also at the end of the stream. -/
theorem finish_loneCr {content : List UInt8} (h : Plain content) {rest : List UInt8}
    (hhead : rest.head? ≠ some newline) (after : Bool) :
    finish ⟨[], false, after⟩ (content ++ carriageReturn :: rest) =
      emitted content (content ≠ []) ++ finish ⟨[], false, after || content ≠ []⟩ rest := by
  have hreturn : pushByte ⟨content, false, after⟩ carriageReturn =
      (⟨content, true, after⟩, []) := rfl
  rw [finish_append, push_plain h, List.nil_append, List.nil_append, finish_cons,
    hreturn, List.nil_append]
  cases rest with
  | nil => cases content <;> rfl
  | cons byte rest =>
      have hbyte : byte ≠ newline := fun heq => hhead (congrArg some heq)
      have hpush : pushByte ⟨content, true, after⟩ byte =
          ((take ⟨[], false, after || content ≠ []⟩ byte).1,
            emitted content (content ≠ []) ++
              (take ⟨[], false, after || content ≠ []⟩ byte).2) := by
        unfold pushByte
        rw [if_pos rfl]
        dsimp only
        rw [if_neg hbyte, endAtLoneCr_eq]
      have hplain : pushByte ⟨[], false, after || content ≠ []⟩ byte =
          take ⟨[], false, after || content ≠ []⟩ byte :=
        rfl
      rw [finish_cons, hpush, finish_cons, hplain, List.append_assoc]

/-! ### The state after some lines -/

theorem loneCrSinceNewline_concat (before : List RawLine) (line : RawLine) :
    loneCrSinceNewline (before ++ [line]) =
      if line.endsAtNewline then false else loneCrSinceNewline before || line.endsAtLoneCr := by
  unfold loneCrSinceNewline
  rw [List.reverse_append, List.reverse_singleton, List.singleton_append, List.takeWhile_cons]
  cases line.endsAtNewline with
  | true => rfl
  | false =>
      rw [Bool.not_false, if_pos rfl, List.any_cons, Bool.or_comm]
      rfl

/-- After some lines, the buffer holds whether a lone `\r` has ended one since the last line feed,
and emits what the rule says. -/
theorem finish_cuts {bytes : List UInt8} {lines : List RawLine} (h : Cuts bytes lines)
    (before : List RawLine) :
    finish ⟨[], false, loneCrSinceNewline before⟩ bytes = emittedAfter before lines := by
  induction h generalizing before with
  | @endOfStream content hplain =>
      unfold finish
      rw [push_plain hplain]
      cases content <;> rfl
  | @newline content rest lines hplain hrest ih =>
      have hnext := ih (before ++ [⟨content, .newline⟩])
      rw [loneCrSinceNewline_concat] at hnext
      rw [finish_newline hplain, emittedAfter, ← hnext]
      rfl
  | @crlf content rest lines hplain hrest ih =>
      have hnext := ih (before ++ [⟨content, .crlf⟩])
      rw [loneCrSinceNewline_concat] at hnext
      rw [finish_crlf hplain, emittedAfter, ← hnext]
      rfl
  | @loneCr content rest lines hplain hhead hrest ih =>
      have hnext := ih (before ++ [⟨content, .loneCr⟩])
      rw [loneCrSinceNewline_concat] at hnext
      rw [finish_loneCr hplain hhead, emittedAfter, ← hnext]
      simp [emitted, isEmitted, RawLine.endsAtNewline, RawLine.endsAtLoneCr]

/-- However a stream is cut into chunks, the buffer emits what it emits for the whole stream at
once, and that is what the rule says of the stream's lines. -/
theorem line_framing (chunks : List (List UInt8)) :
    new.pushAll chunks = new.pushAll [chunks.flatten] ∧
      (∃ lines, Cuts chunks.flatten lines) ∧
      ∀ lines, Cuts chunks.flatten lines → new.pushAll chunks = emittedAfter [] lines := by
  refine ⟨?_, exists_cuts _, ?_⟩
  · rw [pushAll_eq, pushAll_eq, List.flatten_singleton]
  · intro lines hlines
    rw [pushAll_eq]
    exact finish_cuts hlines []

/-- A CRLF in two chunks, a run of carriage returns, and an empty line that is left out. -/
theorem line_framing_crlf :
    new.pushAll [[97, 13], [10, 10, 98, 13, 13], [10, 99]] = [['a'], [], ['b'], ['c']] ∧
      new.pushAll [[97, 13], [10, 10, 98, 13, 13], [10, 99]] =
        emittedAfter [] [⟨[97], .crlf⟩, ⟨[], .newline⟩, ⟨[98], .loneCr⟩, ⟨[], .crlf⟩,
          ⟨[99], .endOfStream⟩] := by
  refine ⟨by decide, (line_framing _).2.2 _ ?_⟩
  have hplain : ∀ content ∈ [[97], [98], [99], ([] : List UInt8)], Plain content := by
    unfold Plain
    decide
  exact .crlf (hplain [97] (by decide))
    (.newline plain_nil (.loneCr (hplain [98] (by decide)) (by decide)
    (.crlf plain_nil (.endOfStream (hplain [99] (by decide))))))

end Ratect.LineBuffer
