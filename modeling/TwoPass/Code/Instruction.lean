import TwoPass.Code.Line

/-!
# Instructions

An instruction has a mode, an opcode and operands, each of which is a value or a label that is not
known yet.  Placed at an address it becomes a line, in which the labels wait by position.
-/

namespace TwoPass

/-- An operand of an instruction. -/
inductive Operand where
  | value (value : UInt32)
  /-- A label whose address is not known yet. -/
  | label (name : Text)
  deriving DecidableEq, Repr, Inhabited

/-- An encoded instruction. -/
structure Instruction where
  mode : Mode
  opcode : Opcode
  operands : List Operand
  /-- The number of bytes of opcode and operands together. -/
  size : Nat
  deriving DecidableEq, Repr, Inhabited

namespace Operand

/-- The number that a value operand becomes in a line: words from `2 ^ 31` on are negative. -/
def number? : Operand → Option Int
  | value word => some ((word.toNat : Int).bmod UInt32.size)
  | label _ => none

end Operand

namespace Instruction

/-- An instruction with the given number of operand bytes. -/
def sized (mode : Mode) (opcode : Opcode) (operands : List Operand) (operandBytes : Nat) :
    Instruction :=
  ⟨mode, opcode, operands, opcode.size + operandBytes⟩

/-- The labels among some operands with their positions, the first of which is `position`. -/
def pendingFrom (position : Nat) : List Operand → List (Nat × Text)
  | [] => []
  | .value _ :: rest => pendingFrom (position + 1) rest
  | .label name :: rest => (position, name) :: pendingFrom (position + 1) rest

/-- The line that holds an instruction at an address. -/
def toLine (instruction : Instruction) (address : UInt32) : Line where
  address := some address
  opcode := some instruction.opcode
  mode := some instruction.mode
  operands := instruction.operands.filterMap Operand.number?
  pending := pendingFrom 0 instruction.operands
  size := instruction.size

end Instruction

end TwoPass
