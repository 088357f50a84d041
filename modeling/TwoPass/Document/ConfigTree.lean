import TwoPass.Command.Config
import TwoPass.Document.Yaml

/-!
# Configurations as documents

A configuration is a YAML record.  Fields that are left out keep their defaults; a field that is not
known is an error.
-/

namespace TwoPass.Config

/-- The names of the fields. -/
def fieldNames : List Text :=
  ["record_len".toList, "multiple_org".toList, "listing".toList, "hex".toList, "srec".toList,
    "symbols".toList]

/-- The value of a field, or its default if it is left out. -/
def fieldOr? {α : Type} (name : Text) (value? : Tree → Option α) (default : α)
    (fields : List (Text × Tree)) : Option α := do
  match ← onlyField? [name] fields with
  | some tree => value? tree
  | none => return default

/-- The configuration that a document spells. -/
def ofTree? (tree : Tree) : Option Config := do
  let fields ← tree.fields?
  if fields.all (fieldNames.contains ·.1) then
    let standard : Config := {}
    let flag (name : Text) (default : Bool) := fieldOr? name Tree.truth? default fields
    return {
      recordLength := ← fieldOr? "record_len".toList Tree.number? standard.recordLength fields
      multipleOrigins := ← flag "multiple_org".toList standard.multipleOrigins
      listing := ← flag "listing".toList standard.listing
      dump := ← flag "hex".toList standard.dump
      records := ← flag "srec".toList standard.records
      symbolMap := ← flag "symbols".toList standard.symbolMap }
  else none

/-- The configuration that a text spells. -/
def ofText? (text : Text) : Option Config := (Yaml.parse? text).bind ofTree?

/-- The configuration that the contents of a file spell. -/
def ofBytes? (bytes : List UInt8) : Option Config := (Utf8.decode? bytes).bind ofText?

/-- Reads a configuration. -/
def ofYaml (text : Text) : Except ConfigError Config :=
  (ofText? text).elim (.error .malformed) .ok

/-- Loads a configuration in YAML. -/
def load (contents : Except FileError (List UInt8)) : Except ConfigError Config :=
  loadBy ofBytes? contents

end TwoPass.Config
