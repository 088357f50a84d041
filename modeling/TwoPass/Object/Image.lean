import TwoPass.Object.Run

/-!
# Memory images

What runs of bytes mean: a memory that holds a byte at some addresses and nothing at all others.
-/

namespace TwoPass

/-- The contents of a memory by address. -/
abbrev Image := Nat → Option UInt8

namespace Run

/-- The byte that a run puts at an address. -/
def byteAt (run : Run) (address : Nat) : Option UInt8 :=
  if run.start.toNat ≤ address then run.bytes[address - run.start.toNat]? else none

/-- The memory that some runs fill.  Where they disagree, the first one counts. -/
def image (runs : List Run) : Image := fun address => runs.findSome? (·.byteAt address)

/-- Bytes with their addresses, the first of which is `address`. -/
def cellsFrom (address : Nat) : List UInt8 → List (Nat × UInt8)
  | [] => []
  | byte :: rest => (address, byte) :: cellsFrom (address + 1) rest

/-- The bytes of some runs with their addresses, in the order of the runs. -/
def cells (runs : List Run) : List (Nat × UInt8) :=
  runs.flatMap fun run => cellsFrom run.start.toNat run.bytes

end Run

end TwoPass
