import TwoPass.Source.Symbols

/-!
# Symbol maps

The symbols of a program, both labels and constants sorted by name.
-/

namespace TwoPass

/-- The labels and the constants of a program, each kind in the order of the names. -/
structure SymbolMap where
  labels : List (Text × UInt32)
  constants : List (Text × UInt32)
  deriving DecidableEq, Repr, Inhabited

namespace SymbolMap

/-- Whether a text comes before another one or equals it, by code points. -/
def inOrder : Text → Text → Bool
  | [], _ => true
  | _ :: _, [] => false
  | a :: as, b :: bs => a < b || (a == b && inOrder as bs)

/-- Symbols in the order of their names. -/
def sorted (entries : List (Text × UInt32)) : List (Text × UInt32) :=
  entries.mergeSort fun a b => inOrder a.1 b.1

/-- The symbol map of a program. -/
def ofSymbols (symbols : Symbols) : SymbolMap := ⟨sorted symbols.labels, sorted symbols.constants⟩

end SymbolMap

end TwoPass
