import TwoPass.Document.Json
import TwoPass.Document.Yaml
import TwoPass.Processor.TableFile

/-!
# Instruction tables as documents

A table is a record with the field `standard`, a mapping from mnemonics to modes, and optionally the
field `exceptions`, also called `special`, for the mnemonics with several operands.  Each of those
is a record of `operands` and `addressingModes`, also called `modes`.  Other fields are ignored.  In
JSON, a record may also be written as an array of its fields in this order.
-/

namespace TwoPass

namespace TableDefinition

/-- The opcodes of a mnemonic.  Of a repeated mode, the last opcode counts. -/
def modesOfTree? (tree : Tree) : Option ModeTexts :=
  (tree.pairs? Mode.ofTag? Tree.text?).map bindAll

/-- A special mnemonic. -/
def specialOfTree? (positional : Bool) (tree : Tree) : Option SpecialText := do
  match tree with
  | .sequence items =>
    match positional, items with
    | true, [operands, modes] => return ⟨← operands.number?, ← modesOfTree? modes⟩
    | _, _ => none
  | _ =>
    let fields ← tree.fields?
    let operands ← onlyField? ["operands".toList] fields
    let modes ← onlyField? ["addressingModes".toList, "modes".toList] fields
    return ⟨← (← operands).number?, ← modesOfTree? (← modes)⟩

/-- The section of standard mnemonics.  Of a repeated mnemonic, the last one counts. -/
def standardOfTree? (tree : Tree) : Option (List (Text × ModeTexts)) :=
  (tree.pairs? some modesOfTree?).map bindAll

/-- The section of special mnemonics, which is empty if it is left out. -/
def specialsOfTree? (positional : Bool) : Option Tree → Option (List (Text × SpecialText))
  | none => some []
  | some tree => (tree.pairs? some (specialOfTree? positional)).map bindAll

/-- The definition that a document spells, where records may be `positional` or not. -/
def ofTree? (positional : Bool) (tree : Tree) : Option TableDefinition := do
  match tree with
  | .sequence items =>
    match positional, items with
    | true, [standard] => return { standard := ← standardOfTree? standard }
    | true, [standard, special] =>
      return ⟨← standardOfTree? standard, ← specialsOfTree? positional (some special)⟩
    | _, _ => none
  | _ =>
    let fields ← tree.fields?
    let standard ← onlyField? ["standard".toList] fields
    let special ← onlyField? ["exceptions".toList, "special".toList] fields
    return ⟨← standardOfTree? (← standard), ← specialsOfTree? positional special⟩

/-- The readers that come with the command. -/
def readers : TableReaders where
  json? text := (Json.parse? text).bind (ofTree? true)
  yaml? text := (Yaml.parse? text).bind (ofTree? false)

end TableDefinition

namespace Table

/-- Reads a table in JSON. -/
def ofJson (text : Text) : Except TableError Table :=
  ofSpelling .malformedJson (TableDefinition.readers.json? text)

/-- Reads a table in YAML. -/
def ofYaml (text : Text) : Except TableError Table :=
  ofSpelling .malformedYaml (TableDefinition.readers.yaml? text)

/-- Loads a table in either format. -/
def load (path : Text) (contents : Except FileError (List UInt8)) : Except TableError Table :=
  loadBy TableDefinition.readers path contents

end Table

end TwoPass
