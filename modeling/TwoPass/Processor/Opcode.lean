import TwoPass.Text.Blank
import TwoPass.Text.Numeral

/-!
# Opcodes

An opcode is one byte, or two where the first selects a page of further instructions.
-/

namespace TwoPass

/-- An operation code. -/
inductive Opcode where
  /-- A code of one byte. -/
  | short (code : UInt8)
  /-- A code of two bytes, of which the first selects the page. -/
  | paged (page code : UInt8)
  deriving DecidableEq, Repr, Inhabited

namespace Opcode

/-- The bytes of an opcode, in the order in which they are stored. -/
def bytes : Opcode → List UInt8
  | short code => [code]
  | paged page code => [page, code]

/-- The number of bytes. -/
def size : Opcode → Nat
  | short _ => 1
  | paged _ _ => 2

@[simp] theorem length_bytes (opcode : Opcode) : opcode.bytes.length = opcode.size := by
  cases opcode <;> rfl

/-- The bytes read as one number, most significant first. -/
def value : Opcode → Nat
  | short code => code.toNat
  | paged page code => page.toNat * 256 + code.toNat

/-- Two or four hexadecimal digits. -/
def render (opcode : Opcode) : Text := opcode.bytes.flatMap Text.byteHex

/-- The characters of a text that are not blank. -/
def squeeze (text : Text) : Text := text.filter (!Text.isBlank ·)

/-- A hexadecimal number, which may carry a plus sign in front. -/
def hexNumber? (text : Text) : Option Nat := Text.numeral? 16 (Text.dropFirst '+' text)

/-- The opcode that a table spells: two or four characters that are a hexadecimal number, blanks
aside.  Two bytes are taken only if the first is not zero, since a smaller number fits one. -/
def parse? (text : Text) : Option Opcode :=
  let digits := squeeze text
  if digits.length == 2 then
    (hexNumber? digits).map fun number => short number.toUInt8
  else if digits.length == 4 then
    (hexNumber? digits).bind fun number =>
      if number ≤ 0xFF then none
      else some (paged (number / 256).toUInt8 number.toUInt8)
  else none

end Opcode

end TwoPass
