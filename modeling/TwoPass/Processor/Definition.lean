import TwoPass.Processor.Table

/-!
# Definitions of instruction tables

A table file, once its syntax has been read, is a definition: mnemonics with their opcodes still as
text.  A definition becomes a table if every mnemonic has a mode, every opcode can be read, every
special mnemonic takes two or three operands and no mnemonic is repeated.
-/

namespace TwoPass

/-- The opcodes of a mnemonic as written, by addressing mode. -/
abbrev ModeTexts := List (Mode × Text)

/-- A special mnemonic as written. -/
structure SpecialText where
  operands : Nat
  modes : ModeTexts
  deriving DecidableEq, Repr, Inhabited

/-- A table as written, each mnemonic of a section once. -/
structure TableDefinition where
  standard : List (Text × ModeTexts)
  special : List (Text × SpecialText) := []
  deriving DecidableEq, Repr, Inhabited

namespace TableDefinition

/-- Reads one opcode. -/
def readOpcode (text : Text) : Except TableError Opcode :=
  (Opcode.parse? text).elim (.error (.badOpcode text)) .ok

/-- Reads the opcodes of a mnemonic, of which there has to be one at least. -/
def readModes (mnemonic : Text) (modes : ModeTexts) : Except TableError Modes :=
  if modes.isEmpty then .error (.noModes mnemonic)
  else modes.mapM fun mode => (readOpcode mode.2).map (mode.1, ·)

/-- Enters a standard mnemonic as written. -/
def addStandard (table : Table) (entry : Text × ModeTexts) : Except TableError Table := do
  let modes ← readModes entry.1 entry.2
  table.insertStandard entry.1 modes

/-- Enters a special mnemonic as written. -/
def addSpecial (table : Table) (entry : Text × SpecialText) : Except TableError Table := do
  let modes ← readModes entry.1 entry.2.modes
  table.insertSpecial entry.1 entry.2.operands modes

/-- The table of a definition: the standard mnemonics in order, then the special ones. -/
def toTable (definition : TableDefinition) : Except TableError Table := do
  let table ← definition.standard.foldlM addStandard {}
  definition.special.foldlM addSpecial table

end TableDefinition

end TwoPass
