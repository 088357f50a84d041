import TwoPass.Command.Config
import TwoPass.Processor.TableFile
import TwoPass.Report.SymbolMap

/-!
# Formats

A run reads its configuration and its instruction table from structured documents and writes one for
the symbol map.  What such documents look like is no part of the command, which takes readers and a
writer for them.
-/

namespace TwoPass

/-- The readers and the writer of documents that a run depends on. -/
structure Formats extends TableReaders where
  /-- The configuration that the contents of a file spell. -/
  config? : List UInt8 → Option Config
  /-- The document for a symbol map, unless the writer fails. -/
  symbolMap? : SymbolMap → Option Text

/-- Every symbol map can be written. -/
def Formats.WritesSymbols (formats : Formats) : Prop :=
  ∀ map, ∃ text, formats.symbolMap? map = some text

end TwoPass
