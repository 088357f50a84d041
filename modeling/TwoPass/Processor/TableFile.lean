import TwoPass.File.Disk
import TwoPass.File.Path
import TwoPass.Processor.Definition

/-!
# Table files

An instruction table is written in JSON or in YAML, which the extension of its file says.  Loading
it takes a reader for each of the two formats.
-/

namespace TwoPass

/-- Readers of table definitions in the formats that a table can have. -/
structure TableReaders where
  /-- The definition that a text in JSON spells. -/
  json? : Text → Option TableDefinition
  /-- The definition that a text in YAML spells. -/
  yaml? : Text → Option TableDefinition

namespace Table

/-- The table of the definition that a text spells, if it spells one. -/
def ofSpelling (malformed : TableError) : Option TableDefinition → Except TableError Table
  | some definition => definition.toTable
  | none => .error malformed

/-- Reads a table of the format that the extension of its path says. -/
def ofFormat (readers : TableReaders) (path text : Text) : Except TableError Table :=
  match (Path.extension? path).map Text.fold with
  | some extension =>
    if extension == "json".toList then ofSpelling .malformedJson (readers.json? text)
    else if extension == "yaml".toList || extension == "yml".toList then
      ofSpelling .malformedYaml (readers.yaml? text)
    else .error (.unknownFormat path)
  | none => .error (.unknownFormat path)

/-- Makes a table of the contents of a file.  That the file can be read as text comes first. -/
def loadBy (readers : TableReaders) (path : Text) (contents : Except FileError (List UInt8)) :
    Except TableError Table :=
  match contents with
  | .error error => .error (.unreadable error.message)
  | .ok bytes =>
    match Utf8.decode? bytes with
    | none => .error (.unreadable notTextMessage)
    | some text => ofFormat readers path text

end Table

end TwoPass
