import Mathlib

/-! # Length-prefixed fields and hexadecimal digits

`leBytes width n` is a number in `width` little-endian bytes, `beBytes width n` in big-endian ones,
and `frame` puts a field's length in eight little-endian bytes in front of it.  Fields so framed can
be told apart wherever they end (`frame_append_inj`).  `hex` writes two lower-case digits a byte. -/

namespace Framing

/-- The low `width` bytes of a number, least significant first. -/
def leBytes : ℕ → ℕ → List UInt8
  | 0, _ => []
  | width + 1, n => UInt8.ofNat (n % 256) :: leBytes width (n / 256)

@[simp] theorem length_leBytes (width n : ℕ) : (leBytes width n).length = width := by
  induction width generalizing n with
  | zero => rfl
  | succ width ih => simp [leBytes, ih]

theorem leBytes_inj {width m n : ℕ} (hm : m < 256 ^ width) (hn : n < 256 ^ width)
    (h : leBytes width m = leBytes width n) : m = n := by
  induction width generalizing m n with
  | zero => omega
  | succ width ih =>
      obtain ⟨hlow, hhigh⟩ := List.cons.inj h
      have hlow' : m % 256 = n % 256 := by
        have := congrArg UInt8.toNat hlow
        simpa [UInt8.toNat_ofNat'] using this
      have hhigh' : m / 256 = n / 256 := by
        apply ih _ _ hhigh
        · rw [pow_succ] at hm
          omega
        · rw [pow_succ] at hn
          omega
      omega

/-- The number that some bytes write, least significant first. -/
def ofLeBytes : List UInt8 → ℕ
  | [] => 0
  | b :: bytes => b.toNat + 256 * ofLeBytes bytes

theorem ofLeBytes_leBytes (width n : ℕ) : ofLeBytes (leBytes width n) = n % 256 ^ width := by
  induction width generalizing n with
  | zero => simp [leBytes, ofLeBytes, Nat.mod_one]
  | succ width ih =>
      have hbyte : (UInt8.ofNat (n % 256)).toNat = n % 256 := by simp [UInt8.toNat_ofNat']
      rw [leBytes, ofLeBytes, ih, hbyte, pow_succ', Nat.mod_mul]

theorem leBytes_ofLeBytes (bytes : List UInt8) :
    leBytes bytes.length (ofLeBytes bytes) = bytes := by
  induction bytes with
  | nil => rfl
  | cons b bytes ih =>
      have hb : b.toNat < 256 := b.toNat_lt
      have hlow : (b.toNat + 256 * ofLeBytes bytes) % 256 = b.toNat := by omega
      have hhigh : (b.toNat + 256 * ofLeBytes bytes) / 256 = ofLeBytes bytes := by omega
      rw [List.length_cons, ofLeBytes, leBytes, hlow, hhigh, ih, UInt8.ofNat_toNat]

theorem ofLeBytes_lt (bytes : List UInt8) : ofLeBytes bytes < 256 ^ bytes.length := by
  induction bytes with
  | nil => simp [ofLeBytes]
  | cons b bytes ih =>
      have hb : b.toNat < 256 := b.toNat_lt
      rw [List.length_cons, ofLeBytes, pow_succ']
      omega

/-- The low `width` bytes of a number, most significant first. -/
def beBytes (width n : ℕ) : List UInt8 := (leBytes width n).reverse

/-- The number that some bytes write, most significant first. -/
def ofBeBytes (bytes : List UInt8) : ℕ := ofLeBytes bytes.reverse

@[simp] theorem length_beBytes (width n : ℕ) : (beBytes width n).length = width := by simp [beBytes]

theorem ofBeBytes_beBytes (width n : ℕ) : ofBeBytes (beBytes width n) = n % 256 ^ width := by
  rw [ofBeBytes, beBytes, List.reverse_reverse, ofLeBytes_leBytes]

theorem beBytes_ofBeBytes (bytes : List UInt8) :
    beBytes bytes.length (ofBeBytes bytes) = bytes := by
  rw [beBytes, ofBeBytes, ← List.length_reverse, leBytes_ofLeBytes, List.reverse_reverse]

theorem ofBeBytes_lt (bytes : List UInt8) : ofBeBytes bytes < 256 ^ bytes.length := by
  rw [← List.length_reverse]
  exact ofLeBytes_lt _

/-- A field with its length in front. -/
def frame (field : List UInt8) : List UInt8 := leBytes 8 field.length ++ field

/-- Fields that fit their length are told apart, whatever follows them. -/
theorem frame_append_inj {a b rest rest' : List UInt8} (ha : a.length < 2 ^ 64)
    (hb : b.length < 2 ^ 64) (h : frame a ++ rest = frame b ++ rest') : a = b ∧ rest = rest' := by
  rw [frame, frame, List.append_assoc, List.append_assoc] at h
  obtain ⟨hlength, hfields⟩ := List.append_inj h (by simp)
  have hlength' : a.length = b.length := leBytes_inj (by simpa using ha) (by simpa using hb) hlength
  exact List.append_inj hfields hlength'

/-- A hexadecimal digit. -/
def hexDigit (n : ℕ) : Char := "0123456789abcdef".toList.getD n '0'

theorem hexDigit_inj {m n : ℕ} (hm : m < 16) (hn : n < 16)
    (h : hexDigit m = hexDigit n) : m = n := by
  have hall : ∀ m < 16, ∀ n < 16, hexDigit m = hexDigit n → m = n := by decide
  exact hall m hm n hn h

/-- Two digits a byte. -/
def hex (bytes : List UInt8) : List Char :=
  bytes.flatMap fun byte => [hexDigit (byte.toNat / 16), hexDigit (byte.toNat % 16)]

@[simp] theorem length_hex (bytes : List UInt8) : (hex bytes).length = 2 * bytes.length := by
  induction bytes with
  | nil => rfl
  | cons byte bytes ih =>
      rw [hex, List.flatMap_cons, List.length_append, ← hex, ih, List.length_cons]
      simp only [List.length_cons, List.length_nil]
      omega

theorem hex_injective : Function.Injective hex := by
  intro a b h
  induction a generalizing b with
  | nil =>
      cases b with
      | nil => rfl
      | cons y b => simp [hex] at h
  | cons x a ih =>
      cases b with
      | nil => simp [hex] at h
      | cons y b =>
          simp only [hex, List.flatMap_cons, List.cons_append, List.nil_append,
            List.cons.injEq] at h
          obtain ⟨hhigh, hlow, hrest⟩ := h
          have hx := x.toNat_lt
          have hy := y.toNat_lt
          have hhigh' := hexDigit_inj (by omega) (by omega) hhigh
          have hlow' := hexDigit_inj (by omega) (by omega) hlow
          have hbyte : x = y := UInt8.toNat_inj.mp (by omega)
          rw [hbyte, ih hrest]

end Framing
