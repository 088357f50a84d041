import TwoPass.Text.Basic

/-!
# Addressing modes

The seven ways in which an instruction names its operand, and the tags that instruction tables
spell them with.
-/

namespace TwoPass

/-- An addressing mode. -/
inductive Mode where
  /-- No operand. -/
  | inherent
  /-- The operand is the value itself. -/
  | immediate
  /-- An address of one byte. -/
  | direct
  /-- An address of two bytes. -/
  | extended
  /-- A displacement of one byte from the next instruction. -/
  | relative
  /-- An offset of one byte from the register X. -/
  | indexedX
  /-- An offset of one byte from the register Y. -/
  | indexedY
  deriving DecidableEq, Repr, Inhabited

namespace Mode

/-- Every mode, in the order of their declaration. -/
def all : List Mode :=
  [inherent, immediate, direct, extended, relative, indexedX, indexedY]

/-- The tag of a mode in instruction tables. -/
def tag : Mode → Text
  | inherent => "INH".toList
  | immediate => "IMM".toList
  | direct => "DIR".toList
  | extended => "EXT".toList
  | relative => "REL".toList
  | indexedX => "IND,X".toList
  | indexedY => "IND,Y".toList

/-- The mode with exactly the given tag. -/
def ofTag? (text : Text) : Option Mode := all.find? (·.tag == text)

/-- The mode that an index register selects, in either case. -/
def ofRegister? (register : Char) : Option Mode :=
  if register.toUpper == 'X' then some indexedX
  else if register.toUpper == 'Y' then some indexedY
  else none

/-- Whether a label operand of this mode stands for an address rather than a displacement. -/
def isAbsolute : Mode → Bool
  | extended => true
  | _ => false

end Mode

end TwoPass
