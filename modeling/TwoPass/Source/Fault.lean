import TwoPass.Text.Numeral

/-!
# Faults of a source program

What can be wrong with a source line, the number and the wording under which each fault is
reported, and a fault together with the line it was found on.
-/

namespace TwoPass

/-- What is wrong with a source line.  Every fault ends the assembly. -/
inductive Fault where
  | unknownConstant
  | unknownVariable
  | unknownLabel
  | unknownMnemonic
  | missingOperand
  | extraOperand
  | operandTooLarge
  | branchTooFar
  | missingMargin
  | missingEnd
  | codeAfterEnd
  | labelRedefined
  | missingOrigin
  | originRepeated
  | badLiteral
  | unsupportedMode
  | badOperand
  | jumpTooFar
  | constantRedefined
  deriving DecidableEq, Repr, Inhabited

namespace Fault

/-- The number under which a fault is reported.  Sixteen and seventeen are not in use. -/
def code : Fault → Nat
  | unknownConstant => 1
  | unknownVariable => 2
  | unknownLabel => 3
  | unknownMnemonic => 4
  | missingOperand => 5
  | extraOperand => 6
  | operandTooLarge => 7
  | branchTooFar => 8
  | missingMargin => 9
  | missingEnd => 10
  | codeAfterEnd => 11
  | labelRedefined => 12
  | missingOrigin => 13
  | originRepeated => 14
  | badLiteral => 15
  | unsupportedMode => 18
  | badOperand => 19
  | jumpTooFar => 20
  | constantRedefined => 21

/-- The wording of a fault. -/
def message : Fault → Text
  | unknownConstant => "Referenced constant does not exist".toList
  | unknownVariable => "Referenced variable does not exist".toList
  | unknownLabel => "Referenced label does not exist".toList
  | unknownMnemonic => "Mnemonic is not in the instruction set".toList
  | missingOperand => "Not enough operands".toList
  | extraOperand => "One or more unnecessary operands".toList
  | operandTooLarge => "Operand magnitude is not supported".toList
  | branchTooFar => "Relative jump is too far".toList
  | missingMargin => "Instruction lacks at least one space of margin".toList
  | missingEnd => "Source has no END directive".toList
  | codeAfterEnd => "Instructions found after the END directive".toList
  | labelRedefined => "Label is already defined".toList
  | missingOrigin => "Start address was not set with an ORG directive".toList
  | originRepeated => "Start address cannot be set more than once".toList
  | badLiteral => "Cannot parse numeric literal".toList
  | unsupportedMode => "Instruction does not support this addressing mode".toList
  | badOperand => "Operand format is incorrect".toList
  | jumpTooFar => "Absolute jump is too far".toList
  | constantRedefined => "Constant is already defined".toList

end Fault

/-- A fault and the line it was found on, counted from zero. -/
structure Diagnostic where
  line : Nat
  fault : Fault
  deriving DecidableEq, Repr, Inhabited

namespace Diagnostic

/-- The one-line report of a fault. -/
def message (diagnostic : Diagnostic) : Text :=
  "Error ".toList ++ Text.decimal diagnostic.fault.code ++ ": ".toList ++
    diagnostic.fault.message ++ " (line ".toList ++ Text.decimal diagnostic.line ++ ")".toList

end Diagnostic

end TwoPass
