import TwoPass.Code.Layout

/-!
# Programs: filling in the labels

The second pass replaces the labels that operands wait for by numbers.  In extended mode a label
stands for its address; in any other mode it is the target of a branch and stands for the distance
from the end of the instruction.

A line is filled in completely or not at all.  The pass stops at the first line that cannot be
filled in; the lines before it are done, that line and all later ones are as they were.
-/

namespace TwoPass

namespace Line

/-! ### Distances

Distances are measured in signed words of 64 bits, which wrap.  No line of a program is long enough
for that to matter, but a line can be given any size. -/

/-- The address after a line. -/
def nextAddress (line : Line) : Int :=
  (((line.address.getD 0).toNat : Int) + line.size).bmod UInt64.size

/-- The distance from the end of a line to an address. -/
def distance (line : Line) (target : UInt32) : Int :=
  ((target.toNat : Int) - line.nextAddress).bmod UInt64.size

/-- The magnitude of a word.  That of the least word is too large by one, and wraps to the least
word again. -/
def magnitude (word : Int) : Int := (word.natAbs : Int).bmod UInt64.size

/-! ### Filling in -/

/-- The number that a label stands for in a line.  Distances are cut to 32 bits. -/
def labelNumber (symbols : Symbols) (line : Line) (name : Text) : Except Fault Int :=
  match symbols.label? name with
  | none => .error .unknownLabel
  | some target =>
    if line.mode.any Mode.isAbsolute then
      if target ≤ wordMax then .ok target.toNat else .error .jumpTooFar
    else if magnitude (line.distance target) ≤ 0xFF then
      .ok ((line.distance target).bmod UInt32.size)
    else .error .branchTooFar

/-- Puts numbers into a list of operands, each at its position or at the end if that comes first. -/
def insertAll (operands : List Int) (numbers : List (Nat × Int)) : List Int :=
  numbers.foldl (fun list entry => list.insertIdx (min entry.1 list.length) entry.2) operands

/-- Fills in all labels that a line waits for. -/
def link (symbols : Symbols) (line : Line) : Except Fault Line :=
  (line.pending.mapM fun entry => (line.labelNumber symbols entry.2).map (entry.1, ·)).map
    fun numbers => { line with operands := insertAll line.operands numbers, pending := [] }

/-- A line that waits for nothing stays as it is. -/
theorem link_of_settled (symbols : Symbols) (line : Line) (settled : line.pending = []) :
    line.link symbols = .ok line := by
  cases line
  subst settled
  rfl

/-- Fills in lines from the top, the first of which has the number `index`: the lines as they are
left, and the fault that stopped the pass, if any. -/
def linkFrom (symbols : Symbols) (index : Nat) : List Line → List Line × Option Diagnostic
  | [] => ([], none)
  | line :: rest =>
    match line.link symbols with
    | .error fault => (line :: rest, some ⟨index, fault⟩)
    | .ok linked =>
      let result := linkFrom symbols (index + 1) rest
      (linked :: result.1, result.2)

/-- Fills in the labels of all lines. -/
def linkAll (symbols : Symbols) (lines : List Line) : List Line × Option Diagnostic :=
  linkFrom symbols 0 lines

end Line

namespace Program

/-- The second pass over a program. -/
def link (program : Program) : Except Diagnostic Program :=
  match Line.linkAll program.symbols program.lines with
  | (lines, none) => .ok { program with lines }
  | (_, some diagnostic) => .error diagnostic

/-- Both passes over a source. -/
def assemble (setting : Setting) (source : List Text) : Except Diagnostic Program :=
  (layOut setting source).bind link

end Program

end TwoPass
