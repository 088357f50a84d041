import TwoPass.Code.Instruction
import TwoPass.Processor.Table
import TwoPass.Source.Literal
import TwoPass.Source.Symbols

/-!
# Encoding instructions

Choosing the addressing mode, the opcode and the size of an instruction from its mnemonic and its
operand tokens.  A token is a literal or the name of a constant; where a jump or a branch may go to
a label, any other name is left as a label whose address is filled in once all labels are known.
-/

namespace TwoPass

/-! ## Operand tokens -/

/-- The largest operand of one byte. -/
def byteMax : UInt32 := 0xFF

/-- The largest operand of two bytes. -/
def wordMax : UInt32 := 0xFFFF

namespace Symbols

/-- The word that a token denotes: a literal, or else the value of a constant. -/
def value? (symbols : Symbols) (token : Text) : Option UInt32 :=
  (Literal.value? token).or (symbols.constant? token)

/-- A word no larger than `limit`. -/
def checkLimit (limit word : UInt32) : Except Fault UInt32 :=
  if word ≤ limit then .ok word else .error .operandTooLarge

/-- The word that a token denotes, where a name that is no constant is the fault `missing`. -/
def resolve (symbols : Symbols) (limit : UInt32) (missing : Fault) (token : Text) :
    Except Fault UInt32 :=
  match symbols.value? token with
  | some word => checkLimit limit word
  | none => .error missing

/-- The word that a token denotes, where a name that is no constant is taken for a label. -/
def resolveOrDefer (symbols : Symbols) (limit : UInt32) (token : Text) : Except Fault Operand :=
  match symbols.value? token with
  | some word => (checkLimit limit word).map .value
  | none => .ok (.label token)

end Symbols

/-- Splits `base,X` and `base,Y`.  A token whose last character but one is no comma is not indexed;
after a comma, only the two index registers may stand. -/
def indexSuffix (token : Text) : Except Fault (Option (Text × Mode)) :=
  match token.reverse with
  | register :: comma :: base =>
    if comma == ',' then
      match Mode.ofRegister? register with
      | some mode => .ok (some (base.reverse, mode))
      | none => .error .badOperand
    else .ok none
  | _ => .ok none

namespace Instruction

/-- The opcode of a mnemonic for a mode that it has to support. -/
def requireMode (modes : Modes) (mode : Mode) : Except Fault Opcode :=
  (modes.opcode? mode).elim (.error .unsupportedMode) .ok

/-! ## Special mnemonics -/

/-- The operands of a special mnemonic.  The mask may be joined to the operand before it, as in
`address,#mask`. -/
def specialParts (tokens : List Text) : List Text := tokens.flatMap (Text.splitOnPair ',' '#')

/-- The mode of the first operand of a special mnemonic and the token that gives its value. -/
def specialBase (token : Text) : Except Fault (Mode × Text) :=
  (indexSuffix token).map fun
    | some (base, mode) => (mode, base)
    | none => (.direct, token)

/-- A special mnemonic with address, mask and the remaining operands, of which only the first can be
a branch target. -/
def encodeParts (symbols : Symbols) (special : Special) (address mask : Text)
    (targets : List Text) : Except Fault Instruction := do
  let (mode, base) ← specialBase address
  let opcode ← requireMode special.modes mode
  let addressWord ← symbols.resolve byteMax .unknownVariable base
  let maskWord ← symbols.resolve byteMax .unknownVariable (Text.dropFirst '#' mask)
  let branch ← (targets.take 1).mapM (symbols.resolveOrDefer byteMax)
  return sized mode opcode (.value addressWord :: .value maskWord :: branch) special.operands

/-- Encodes a special mnemonic, which needs as many operands as the table says. -/
def encodeSpecial (symbols : Symbols) (special : Special) (tokens : List Text) :
    Except Fault Instruction :=
  let parts := specialParts tokens
  if parts.length < special.operands then .error .missingOperand
  else if special.operands < parts.length then .error .extraOperand
  else
    match parts with
    | address :: mask :: targets => encodeParts symbols special address mask targets
    | _ => .error .missingOperand

/-! ## Standard mnemonics -/

/-- Direct mode for an operand that fits one byte, if the mnemonic supports it, and extended mode
for all others. -/
def directOrExtended (modes : Modes) (operand : Operand) : Except Fault Instruction :=
  let short :=
    match operand with
    | .value word => if word ≤ byteMax then modes.opcode? .direct else none
    | .label _ => none
  match short with
  | some opcode => .ok (sized .direct opcode [operand] 1)
  | none => (requireMode modes .extended).map (sized .extended · [operand] 2)

/-- Encodes an operand after a number sign. -/
def encodeImmediate (symbols : Symbols) (modes : Modes) (token : Text) :
    Except Fault Instruction := do
  let opcode ← requireMode modes .immediate
  let word ← symbols.resolve wordMax .unknownConstant token
  return sized .immediate opcode [.value word] (if word ≤ byteMax then 1 else 2)

/-- Encodes an offset from an index register. -/
def encodeIndexed (symbols : Symbols) (modes : Modes) (mode : Mode) (base : Text) :
    Except Fault Instruction := do
  let opcode ← requireMode modes mode
  let offset ← symbols.resolve byteMax .unknownVariable base
  return sized mode opcode [.value offset] 1

/-- Encodes an operand that is an address.  Only a jump may go to a label, and a plain jump is
always written with two address bytes. -/
def encodeAddress (symbols : Symbols) (mnemonic : Text) (modes : Modes) (token : Text) :
    Except Fault Instruction :=
  if Text.sameWord mnemonic "jmp".toList then do
    let opcode ← requireMode modes .extended
    let target ← symbols.resolveOrDefer wordMax token
    return sized .extended opcode [target] 2
  else if Text.sameWord mnemonic "jsr".toList then do
    let target ← symbols.resolveOrDefer wordMax token
    directOrExtended modes target
  else do
    let word ← symbols.resolve wordMax .unknownVariable token
    directOrExtended modes (.value word)

/-- Encodes a standard mnemonic with one operand.  A mnemonic with a relative mode is a branch,
whatever its operand looks like. -/
def encodeOperand (symbols : Symbols) (mnemonic : Text) (modes : Modes) (token : Text) :
    Except Fault Instruction :=
  match modes.opcode? .relative with
  | some opcode => (symbols.resolveOrDefer byteMax token).map (sized .relative opcode [·] 1)
  | none =>
    if token.head? == some '#' then encodeImmediate symbols modes token.tail
    else do
      match ← indexSuffix token with
      | some (base, mode) => encodeIndexed symbols modes mode base
      | none => encodeAddress symbols mnemonic modes token

/-- Encodes a standard mnemonic, which takes no operand or one. -/
def encodeStandard (symbols : Symbols) (mnemonic : Text) (modes : Modes) :
    List Text → Except Fault Instruction
  | [] =>
    match modes.opcode? .inherent with
    | some opcode => .ok (sized .inherent opcode [] 0)
    | none => .error .missingOperand
  | [token] => encodeOperand symbols mnemonic modes token
  | _ => .error .extraOperand

/-- Encodes a mnemonic with its operand tokens. -/
def encode (table : Table) (symbols : Symbols) (mnemonic : Text) (tokens : List Text) :
    Except Fault Instruction :=
  match table.lookup mnemonic with
  | none => .error .unknownMnemonic
  | some (.special special) => encodeSpecial symbols special tokens
  | some (.standard modes) => encodeStandard symbols mnemonic modes tokens

end Instruction

end TwoPass
