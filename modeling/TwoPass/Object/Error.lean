import TwoPass.Text.Numeral

/-!
# Errors of object code

Why a program that has been assembled cannot be written as object code.
-/

namespace TwoPass

/-- Why no object code can be written. -/
inductive ObjectError where
  /-- There is not a single line of code. -/
  | noCode
  /-- A line still waits for a label. -/
  | unresolved (line : Nat)
  | operandOverflow (address : UInt32) (operand : Int)
  /-- Two stretches of code share an address. -/
  | overlap (other start : UInt32)
  | addressOverflow (address : UInt32)
  deriving DecidableEq, Repr, Inhabited

/-- The wording of an error. -/
def ObjectError.message : ObjectError → Text
  | noCode => "Nothing to emit: program has no code".toList
  | unresolved line =>
    "Line ".toList ++ Text.decimal line ++ " still references an unresolved label".toList
  | operandOverflow address operand =>
    "Operand ".toList ++ Text.signedDecimal operand ++ " does not fit its slot at $".toList ++
      Text.addressHex address.toNat
  | overlap other start =>
    "Code at $".toList ++ Text.addressHex start.toNat ++ " overlaps code emitted at $".toList ++
      Text.addressHex other.toNat
  | addressOverflow address =>
    "Code at $".toList ++ Text.addressHex address.toNat ++
      " runs past the 16-bit address space".toList

end TwoPass
