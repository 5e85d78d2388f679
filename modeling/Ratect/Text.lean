import Mathlib

/-! # Printable text

`printable` is the one escaping rule of the program (`ui.rs`): a value from configuration
that an error message quotes has each control character written as Rust's
`char::escape_debug` writes it, and every other character kept.  A Rust `&str` is modelled as
the list of its Unicode scalar values, which is what `str::chars` yields. -/

namespace Ratect

/-- The characters of a Rust string. -/
abbrev Text := List Char

/-- Two strings are equal when their characters are. -/
instance lawfulBEqText : LawfulBEq Text := inferInstance

/-- `char::is_control`: general category `Cc`. -/
def isControl (c : Char) : Bool :=
  decide (c.toNat < 0x20) || (decide (0x7f ≤ c.toNat) && decide (c.toNat ≤ 0x9f))

/-- `char::escape_debug` on a control character: four short forms, and `\u` with the code in
lower-case hexadecimal for the rest. -/
def escapeDebug (c : Char) : Text :=
  if c = '\x00' then ['\\', '0']
  else if c = '\t' then ['\\', 't']
  else if c = '\r' then ['\\', 'r']
  else if c = '\n' then ['\\', 'n']
  else ['\\', 'u', '\x7b'] ++ Nat.toDigits 16 c.toNat ++ ['\x7d']

/-- `escape_controls`: the control characters that `escaped` selects are escaped. -/
def escapeControls (value : Text) (escaped : Char → Bool) : Text :=
  value.flatMap fun c => if isControl c && escaped c then escapeDebug c else [c]

/-- `printable`: every control character is escaped. -/
def printable (value : Text) : Text := escapeControls value fun _ => true

/-- The same on a `String`. -/
def printableString (value : String) : String := String.ofList (printable value.toList)

end Ratect
