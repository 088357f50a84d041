import TwoPass.Source.Fault

/-!
# Symbols

The labels and the constants of a program.  The two kinds of names are independent of each other,
letter case counts, and a name is given a value once only.
-/

namespace TwoPass

/-- Labels and constants, each kind in the order of definition. -/
structure Symbols where
  labels : List (Text × UInt32) := []
  constants : List (Text × UInt32) := []
  deriving DecidableEq, Repr, Inhabited

namespace Symbols

/-- The address of a label. -/
def label? (symbols : Symbols) (name : Text) : Option UInt32 := symbols.labels.lookup name

/-- The value of a constant. -/
def constant? (symbols : Symbols) (name : Text) : Option UInt32 := symbols.constants.lookup name

/-- Gives a new label its address. -/
def defineLabel (symbols : Symbols) (name : Text) (address : UInt32) : Except Fault Symbols :=
  if (symbols.label? name).isSome then .error .labelRedefined
  else .ok { symbols with labels := symbols.labels ++ [(name, address)] }

/-- Gives a new constant its value. -/
def defineConstant (symbols : Symbols) (name : Text) (value : UInt32) : Except Fault Symbols :=
  if (symbols.constant? name).isSome then .error .constantRedefined
  else .ok { symbols with constants := symbols.constants ++ [(name, value)] }

end Symbols

end TwoPass
