import Ratect.Text

/-! # Lines of raw output

`LineBuffer` (`ui/interleaved.rs`) turns chunks of bytes into lines, and `from_utf8_lossy` turns a
line's bytes into text.  The buffer takes one byte after another (`push_append`), so what several
chunks give is what their bytes give (`frame`), and no line has a line feed in it
(`Unbroken.push`). -/

namespace Ratect

/-! ### Lossy decoding -/

/-- A continuation byte. -/
def isContinuation (b : UInt8) : Bool := decide (0x80 ≤ b.toNat) && decide (b.toNat ≤ 0xbf)

/-- The low bits of a continuation byte. -/
def continuationBits (b : UInt8) : ℕ := b.toNat - 0x80

/-- What may follow the first byte of three. -/
def mayFollowOfThree (a b : ℕ) : Bool :=
  if a = 0xe0 then decide (0xa0 ≤ b) && decide (b ≤ 0xbf)
  else if a = 0xed then decide (0x80 ≤ b) && decide (b ≤ 0x9f)
  else decide (0x80 ≤ b) && decide (b ≤ 0xbf)

/-- What may follow the first byte of four. -/
def mayFollowOfFour (a b : ℕ) : Bool :=
  if a = 0xf0 then decide (0x90 ≤ b) && decide (b ≤ 0xbf)
  else if a = 0xf4 then decide (0x80 ≤ b) && decide (b ≤ 0x8f)
  else decide (0x80 ≤ b) && decide (b ≤ 0xbf)

/-- The next character and how many more bytes than its first it takes: U+FFFD stands for the
longest beginning of a character, or for one byte, that no character goes on from. -/
def decodeNext (first : UInt8) (rest : List UInt8) : Char × ℕ :=
  let a := first.toNat
  if a < 0x80 then (Char.ofNat a, 0)
  else if 0xc2 ≤ a ∧ a ≤ 0xdf then
    match rest with
    | b :: _ =>
        if isContinuation b = true then
          (Char.ofNat ((a - 0xc0) * 64 + continuationBits b), 1) else ('\uFFFD', 0)
    | [] => ('\uFFFD', 0)
  else if 0xe0 ≤ a ∧ a ≤ 0xef then
    match rest with
    | b :: more =>
        if mayFollowOfThree a b.toNat = true then
          match more with
          | c :: _ =>
              if isContinuation c = true then
                (Char.ofNat (((a - 0xe0) * 64 + continuationBits b) * 64 + continuationBits c), 2)
              else ('\uFFFD', 1)
          | [] => ('\uFFFD', 1)
        else ('\uFFFD', 0)
    | [] => ('\uFFFD', 0)
  else if 0xf0 ≤ a ∧ a ≤ 0xf4 then
    match rest with
    | b :: more =>
        if mayFollowOfFour a b.toNat = true then
          match more with
          | c :: more =>
              if isContinuation c = true then
                match more with
                | d :: _ =>
                    if isContinuation d = true then
                      (Char.ofNat ((((a - 0xf0) * 64 + continuationBits b) * 64 +
                        continuationBits c) * 64 +
                        continuationBits d), 3)
                    else ('\uFFFD', 2)
                | [] => ('\uFFFD', 2)
              else ('\uFFFD', 1)
          | [] => ('\uFFFD', 1)
        else ('\uFFFD', 0)
    | [] => ('\uFFFD', 0)
  else ('\uFFFD', 0)

/-- The characters of so many bytes at most. -/
def decodeBytes : ℕ → List UInt8 → Text
  | 0, _ => []
  | _ + 1, [] => []
  | fuel + 1, first :: rest =>
      let next := decodeNext first rest
      next.1 :: decodeBytes fuel (rest.drop next.2)

/-- `String::from_utf8_lossy`. -/
def fromUtf8Lossy (bytes : List UInt8) : Text := decodeBytes bytes.length bytes

/-! ### The buffer -/

/-- `LineBuffer`: the bytes of the line that is not yet ended, whether a carriage return waits for
what follows it, and whether the last line ended at a lone one. -/
structure LineBuffer where
  pending : List UInt8 := []
  pendingCr : Bool := false
  afterLoneCr : Bool := false
deriving DecidableEq

namespace LineBuffer

/-- `new`. -/
def new : LineBuffer := {}

def newline : UInt8 := 10

def carriageReturn : UInt8 := 13

/-- `emit_line`. -/
def emitLine (buffer : LineBuffer) : LineBuffer × List Text :=
  ({ buffer with pending := [] }, [fromUtf8Lossy buffer.pending])

/-- `end_at_newline`. -/
def endAtNewline (buffer : LineBuffer) : LineBuffer × List Text :=
  let (ended, lines) :=
    if buffer.pending ≠ [] ∨ buffer.afterLoneCr = false then buffer.emitLine else (buffer, [])
  ({ ended with afterLoneCr := false }, lines)

/-- `end_at_lone_cr`. -/
def endAtLoneCr (buffer : LineBuffer) : LineBuffer × List Text :=
  if buffer.pending ≠ [] then
    let (ended, lines) := buffer.emitLine
    ({ ended with afterLoneCr := true }, lines)
  else (buffer, [])

/-- The `match` on a byte in `push`. -/
def take (buffer : LineBuffer) (byte : UInt8) : LineBuffer × List Text :=
  if byte = carriageReturn then ({ buffer with pendingCr := true }, [])
  else if byte = newline then buffer.endAtNewline
  else ({ buffer with pending := buffer.pending ++ [byte] }, [])

/-- One byte of `push`. -/
def pushByte (buffer : LineBuffer) (byte : UInt8) : LineBuffer × List Text :=
  if buffer.pendingCr = true then
    let resolved := { buffer with pendingCr := false }
    if byte = newline then resolved.endAtNewline
    else
      let (ended, lines) := resolved.endAtLoneCr
      let (taken, more) := ended.take byte
      (taken, lines ++ more)
  else buffer.take byte

/-- `push`. -/
def push : LineBuffer → List UInt8 → LineBuffer × List Text
  | buffer, [] => (buffer, [])
  | buffer, byte :: chunk =>
      let (next, lines) := buffer.pushByte byte
      let (last, more) := next.push chunk
      (last, lines ++ more)

/-- `flush`. -/
def flush (buffer : LineBuffer) : LineBuffer × List Text :=
  let ended := { buffer with pendingCr := false, afterLoneCr := false }
  if buffer.pending ≠ [] then ended.emitLine else (ended, [])

/-- The lines of a whole stream. -/
def frame (bytes : List UInt8) : List Text := (new.push bytes).2 ++ (new.push bytes).1.flush.2

/-! ### Chunks -/

theorem push_append (buffer : LineBuffer) (a b : List UInt8) : buffer.push (a ++ b) =
    (((buffer.push a).1.push b).1, (buffer.push a).2 ++ ((buffer.push a).1.push b).2) := by
  induction a generalizing buffer with
  | nil => rfl
  | cons byte a ih =>
      rw [List.cons_append, push, push]
      simp only [ih, List.append_assoc]

/-- A flush leaves nothing behind. -/
theorem flush_fst (buffer : LineBuffer) : buffer.flush.1 = new := by
  unfold flush
  split
  · rfl
  · next h =>
      rw [not_not] at h
      simp only [h]
      rfl

theorem flush_new : new.flush = (new, []) := rfl

/-! ### No line break in a line -/

theorem ofNat_ne_newline {n : ℕ} (h : n ≠ 10) : Char.ofNat n ≠ '\n' := by
  intro heq
  unfold Char.ofNat at heq
  split at heq
  · have := congrArg Char.toNat heq
    exact h this
  · cases heq

/-- Three bytes are no code of two. -/
theorem one_le_of_mayFollowOfThree {a : ℕ} {b : UInt8} (ha : 0xe0 ≤ a)
    (h : mayFollowOfThree a b.toNat = true) : 1 ≤ (a - 0xe0) * 64 + continuationBits b := by
  unfold mayFollowOfThree at h
  unfold continuationBits
  split at h
  · simp only [Bool.and_eq_true, decide_eq_true_eq] at h
    omega
  · omega

/-- Nor are four. -/
theorem one_le_of_mayFollowOfFour {a : ℕ} {b : UInt8} (ha : 0xf0 ≤ a)
    (h : mayFollowOfFour a b.toNat = true) : 1 ≤ (a - 0xf0) * 64 + continuationBits b := by
  unfold mayFollowOfFour at h
  unfold continuationBits
  split at h
  · simp only [Bool.and_eq_true, decide_eq_true_eq] at h
    omega
  · omega

/-- Only a line feed decodes to one. -/
theorem decodeNext_newline {first : UInt8} {rest : List UInt8} (h : first ≠ newline) :
    (decodeNext first rest).1 ≠ '\n' := by
  have hfirst : first.toNat ≠ 10 := fun heq => h (UInt8.toNat_inj.mp heq)
  have hreplacement : '\uFFFD' ≠ '\n' := by decide
  unfold decodeNext
  dsimp only
  split_ifs with hone htwo hthree hfour
  · exact ofNat_ne_newline hfirst
  · rcases rest with _ | ⟨b, rest⟩
    · exact hreplacement
    · dsimp only
      split_ifs
      · dsimp only
        exact ofNat_ne_newline (by omega)
      · exact hreplacement
  · rcases rest with _ | ⟨b, _ | ⟨c, rest⟩⟩
    · exact hreplacement
    · dsimp only
      split_ifs
      · exact hreplacement
      · exact hreplacement
    · dsimp only
      split_ifs with hfollow
      · dsimp only
        have hcode := one_le_of_mayFollowOfThree hthree.1 hfollow
        exact ofNat_ne_newline (by omega)
      · exact hreplacement
      · exact hreplacement
  · rcases rest with _ | ⟨b, _ | ⟨c, _ | ⟨d, rest⟩⟩⟩
    · exact hreplacement
    · dsimp only
      split_ifs
      · exact hreplacement
      · exact hreplacement
    · dsimp only
      split_ifs
      · exact hreplacement
      · exact hreplacement
      · exact hreplacement
    · dsimp only
      split_ifs with hfollow
      · dsimp only
        have hcode := one_le_of_mayFollowOfFour hfour.1 hfollow
        exact ofNat_ne_newline (by omega)
      · exact hreplacement
      · exact hreplacement
      · exact hreplacement
  · exact hreplacement

theorem decodeBytes_newline {fuel : ℕ} {bytes : List UInt8} (h : newline ∉ bytes) :
    '\n' ∉ decodeBytes fuel bytes := by
  induction fuel generalizing bytes with
  | zero => exact List.not_mem_nil
  | succ fuel ih =>
      cases bytes with
      | nil => exact List.not_mem_nil
      | cons first rest =>
          rw [List.mem_cons, not_or] at h
          rw [decodeBytes, List.mem_cons, not_or]
          exact ⟨(decodeNext_newline (Ne.symm h.1)).symm, ih fun hmem =>
            h.2 (List.mem_of_mem_drop hmem)⟩

/-- Nothing in the buffer is a line feed. -/
def Unbroken (buffer : LineBuffer) : Prop := newline ∉ buffer.pending

/-- What an operation leaves is unbroken, and so are the lines it ends. -/
def Keeps (result : LineBuffer × List Text) : Prop :=
  result.1.Unbroken ∧ ∀ line ∈ result.2, '\n' ∉ line

theorem Unbroken.emitLine {buffer : LineBuffer} (h : buffer.Unbroken) : Keeps buffer.emitLine := by
  refine ⟨List.not_mem_nil, fun line hline => ?_⟩
  rw [List.mem_singleton.mp hline]
  exact decodeBytes_newline h

theorem Unbroken.endAtNewline {buffer : LineBuffer} (h : buffer.Unbroken) :
    Keeps buffer.endAtNewline := by
  unfold LineBuffer.endAtNewline
  by_cases hemits : buffer.pending ≠ [] ∨ buffer.afterLoneCr = false
  · rw [if_pos hemits]
    exact h.emitLine
  · rw [if_neg hemits]
    exact ⟨h, fun line hline => absurd hline List.not_mem_nil⟩

theorem Unbroken.endAtLoneCr {buffer : LineBuffer} (h : buffer.Unbroken) :
    Keeps buffer.endAtLoneCr := by
  unfold LineBuffer.endAtLoneCr
  split
  · exact h.emitLine
  · exact ⟨h, fun line hline => absurd hline List.not_mem_nil⟩

theorem Unbroken.take {buffer : LineBuffer} (h : buffer.Unbroken) (byte : UInt8) :
    Keeps (buffer.take byte) := by
  unfold LineBuffer.take
  split_ifs with hreturn hnewline
  · exact ⟨h, fun line hline => absurd hline List.not_mem_nil⟩
  · exact h.endAtNewline
  · refine ⟨?_, fun line hline => absurd hline List.not_mem_nil⟩
    intro hmem
    rcases List.mem_append.mp hmem with hmem | hmem
    · exact h hmem
    · exact hnewline (List.mem_singleton.mp hmem).symm

theorem Unbroken.pushByte {buffer : LineBuffer} (h : buffer.Unbroken) (byte : UInt8) :
    Keeps (buffer.pushByte byte) := by
  have hresolved : Unbroken { buffer with pendingCr := false } := h
  unfold LineBuffer.pushByte
  split_ifs
  · exact hresolved.endAtNewline
  · obtain ⟨hended, hlines⟩ := hresolved.endAtLoneCr
    obtain ⟨htaken, hmore⟩ := hended.take byte
    exact ⟨htaken, fun line hline => (List.mem_append.mp hline).elim (hlines line) (hmore line)⟩
  · exact h.take byte

theorem Unbroken.push {buffer : LineBuffer} (h : buffer.Unbroken) (chunk : List UInt8) :
    Keeps (buffer.push chunk) := by
  induction chunk generalizing buffer with
  | nil => exact ⟨h, fun line hline => absurd hline List.not_mem_nil⟩
  | cons byte chunk ih =>
      obtain ⟨hnext, hlines⟩ := h.pushByte byte
      obtain ⟨hlast, hmore⟩ := ih hnext
      exact ⟨hlast, fun line hline => (List.mem_append.mp hline).elim (hlines line) (hmore line)⟩

theorem Unbroken.flush {buffer : LineBuffer} (h : buffer.Unbroken) : Keeps buffer.flush := by
  unfold LineBuffer.flush
  split
  · have hended : Unbroken { buffer with pendingCr := false, afterLoneCr := false } := h
    exact hended.emitLine
  · exact ⟨h, fun line hline => absurd hline List.not_mem_nil⟩

theorem unbroken_new : new.Unbroken := List.not_mem_nil

end LineBuffer

end Ratect
