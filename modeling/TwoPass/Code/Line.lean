import TwoPass.Object.Error
import TwoPass.Processor.Mode
import TwoPass.Processor.Opcode

/-!
# Assembled lines

Every source line gives one assembled line.  A line of code has an address, an opcode and operands;
operands that name labels wait in `pending` until all labels are known.  All other lines are empty.

The bytes of a line are its opcode followed by its operands.  Several operands take one byte each, a
single one takes the bytes that the size of the line leaves for it.
-/

namespace TwoPass

/-- What a source line has been assembled to. -/
structure Line where
  address : Option UInt32 := none
  opcode : Option Opcode := none
  /-- The mode that the opcode was chosen for; data has none. -/
  mode : Option Mode := none
  operands : List Int := []
  /-- The positions of the operands that wait for a label, with the names of the labels. -/
  pending : List (Nat × Text) := []
  /-- The number of bytes that the line takes. -/
  size : Nat := 0
  deriving DecidableEq, Repr, Inhabited

/-! ## Two's complement -/

/-- The low `width` bytes of a number, most significant first. -/
def bigEndian (width number : Nat) : List UInt8 :=
  match width with
  | 0 => []
  | width + 1 => bigEndian width (number / 256) ++ [number.toUInt8]

@[simp] theorem length_bigEndian (width number : Nat) :
    (bigEndian width number).length = width := by
  induction width generalizing number with
  | zero => rfl
  | succ width ih => simp [bigEndian, ih]

/-- How many numbers `width` bytes can tell apart. -/
def byteRange (width : Nat) : Nat := Nat.pow 256 width

/-- An integer in `width` bytes, of which there are one to four: a negative one is taken modulo
`256 ^ width`.  An integer whose magnitude needs more bytes has no such form. -/
def twosComplement (value : Int) (width : Nat) : Option Nat :=
  if width == 0 || 4 < width then none
  else if byteRange width ≤ value.natAbs then none
  else some (value % (byteRange width : Int)).toNat

namespace Line

/-- The line that holds no code. -/
def empty : Line := {}

/-- A line of data bytes.  The first byte takes the place of the opcode. -/
def data (address : UInt32) (bytes : List UInt8) : Line where
  address := some address
  opcode := some (.short (bytes.headD 0))
  operands := bytes.tail.map fun byte => (byte.toNat : Int)
  size := bytes.length

/-- Whether a line has neither address nor opcode nor operands. -/
def isEmpty (line : Line) : Bool :=
  line.address.isNone && line.opcode.isNone && line.operands.isEmpty

/-- Whether a line waits for a label. -/
def isPending (line : Line) : Bool := !line.pending.isEmpty

/-- The number of bytes of the opcode. -/
def opcodeSize (line : Line) : Nat := line.opcode.elim 0 Opcode.size

/-- The number of bytes of each operand. -/
def operandWidth (line : Line) : Nat :=
  if 1 < line.operands.length then 1 else line.size - line.opcodeSize

/-- The bytes of an operand of the given width in a line at the given address. -/
def operandBytes (address : UInt32) (width : Nat) (operand : Int) :
    Except ObjectError (List UInt8) :=
  match twosComplement operand width with
  | some number => .ok (bigEndian width number)
  | none => .error (.operandOverflow address operand)

/-- The bytes of the opcode, if there is one, and then those of each operand.  A line without an
address is reported as one at address zero. -/
def byteGroups (line : Line) : Except ObjectError (List (List UInt8)) :=
  (line.operands.mapM (operandBytes (line.address.getD 0) line.operandWidth)).map
    (line.opcode.toList.map Opcode.bytes ++ ·)

/-- All bytes of a line. -/
def bytes (line : Line) : Except ObjectError (List UInt8) := line.byteGroups.map List.flatten

end Line

end TwoPass
