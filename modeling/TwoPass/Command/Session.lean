import TwoPass.Command.Plan
import TwoPass.Document.ConfigTree
import TwoPass.Document.SymbolText
import TwoPass.Document.TableTree

/-!
# Sessions

The command as it is run from a command line, with the formats that come with it.
-/

namespace TwoPass

/-- The formats that come with the command.  Of YAML they read what tables and configurations are
commonly written in: mappings, sequences and scalars, but neither anchors nor tags nor block
scalars. -/
def Formats.standard : Formats where
  toTableReaders := TableDefinition.readers
  config? := Config.ofBytes?
  symbolMap? map := some map.text

namespace Session

/-- The name and the version of the command. -/
def versionRow : Text := "hcasm 0.1.0".toList

/-- The command with its arguments on a disk. -/
def command (arguments : List Text) (disk : Disk) : Outcome :=
  match Options.parse arguments with
  | .misuse => ⟨2, [], []⟩
  | .version => ⟨0, Text.unlines [versionRow], []⟩
  | .run options => execute disk (plan .standard disk.read options)

end Session

end TwoPass
