import TwoPass.Bindings
import TwoPass.Processor.Mode
import TwoPass.Processor.Opcode

/-!
# Instruction tables

An instruction table knows a set of mnemonics.  A standard mnemonic takes at most one operand and
has one opcode for each addressing mode it supports; a special mnemonic takes two or three operands
at once.  The two kinds share one set of names.

Names are stored without surrounding blanks and in small letters, so that a mnemonic can be entered
once only, however it is spelled.
-/

namespace TwoPass

/-! ## Entries -/

/-- The opcodes of a mnemonic by addressing mode. -/
abbrev Modes := List (Mode × Opcode)

/-- The opcode for a mode. -/
def Modes.opcode? (modes : Modes) (mode : Mode) : Option Opcode := modes.lookup mode

/-- A mnemonic that takes several operands at once. -/
structure Special where
  /-- How many operands it takes. -/
  operands : Nat
  modes : Modes
  deriving DecidableEq, Repr, Inhabited

/-- What a table knows about a mnemonic. -/
inductive Entry where
  | standard (modes : Modes)
  | special (special : Special)
  deriving DecidableEq, Repr, Inhabited

/-- Why an instruction table is refused. -/
inductive TableError where
  /-- The file cannot be read, for the reason given. -/
  | unreadable (reason : Text)
  /-- The text is not JSON of the expected shape. -/
  | malformedJson
  /-- The text is not YAML of the expected shape. -/
  | malformedYaml
  /-- The file name has none of the known extensions. -/
  | unknownFormat (path : Text)
  | badOpcode (text : Text)
  | duplicateMnemonic (mnemonic : Text)
  | badOperandCount (mnemonic : Text) (operands : Nat)
  | noModes (mnemonic : Text)
  deriving DecidableEq, Repr, Inhabited

/-- The wording of an error.  What is wrong with a malformed text is not said. -/
def TableError.message : TableError → Text
  | unreadable reason => "Failed to read instruction table: ".toList ++ reason
  | malformedJson => "Malformed JSON instruction table: ".toList
  | malformedYaml => "Malformed YAML instruction table: ".toList
  | unknownFormat path =>
    "Unsupported instruction table format: `".toList ++ path ++
      "` (expected .json, .yaml or .yml)".toList
  | badOpcode text =>
    "Opcode `".toList ++ text ++ "` is not a 1 or 2 byte hex string".toList
  | duplicateMnemonic mnemonic =>
    "Mnemonic `".toList ++ mnemonic ++ "` is defined more than once".toList
  | badOperandCount mnemonic operands =>
    "Mnemonic `".toList ++ mnemonic ++ "` declares ".toList ++ Text.decimal operands ++
      " operands (special mnemonics take 2 or 3)".toList
  | noModes mnemonic => "Mnemonic `".toList ++ mnemonic ++ "` has no addressing modes".toList

/-! ## Tables -/

/-- The mnemonics of a processor, each kind in the order of entry. -/
structure Table where
  standard : List (Text × Modes) := []
  special : List (Text × Special) := []
  deriving DecidableEq, Repr, Inhabited

namespace Table

/-- What the table knows about a mnemonic, in any case. -/
def lookup (table : Table) (mnemonic : Text) : Option Entry :=
  let name := Text.fold mnemonic
  match table.special.lookup name with
  | some special => some (.special special)
  | none => (table.standard.lookup name).map .standard

/-- Whether the table knows a mnemonic. -/
def contains (table : Table) (mnemonic : Text) : Bool := (table.lookup mnemonic).isSome

/-- The number of mnemonics. -/
def size (table : Table) : Nat := table.standard.length + table.special.length

/-- Whether there is no mnemonic at all. -/
def isEmpty (table : Table) : Bool := table.size == 0

/-- The form in which a mnemonic is stored. -/
def nameOf (mnemonic : Text) : Text := Text.fold (Text.trim mnemonic)

/-- The stored form of a mnemonic that the table does not know yet. -/
def freshName (table : Table) (mnemonic : Text) : Except TableError Text :=
  let name := nameOf mnemonic
  if table.contains name then .error (.duplicateMnemonic mnemonic) else .ok name

/-- Enters a standard mnemonic. -/
def insertStandard (table : Table) (mnemonic : Text) (modes : Modes) : Except TableError Table :=
  (table.freshName mnemonic).map fun name =>
    { table with standard := table.standard ++ [(name, modes)] }

/-- Enters a special mnemonic, which takes two or three operands. -/
def insertSpecial (table : Table) (mnemonic : Text) (operands : Nat) (modes : Modes) :
    Except TableError Table :=
  if operands < 2 || 3 < operands then .error (.badOperandCount mnemonic operands)
  else
    (table.freshName mnemonic).map fun name =>
      { table with special := table.special ++ [(name, ⟨operands, modes⟩)] }

end Table

end TwoPass
