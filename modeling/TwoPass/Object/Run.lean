import TwoPass.Code.Line

/-!
# Runs of object code

Lines of code that follow each other without a gap form a run of bytes.  The runs of a program are
kept in the order of their start addresses; they share no address and end within the 16-bit address
space.
-/

namespace TwoPass

/-- A run of bytes from an address on. -/
structure Run where
  start : UInt32
  bytes : List UInt8
  deriving DecidableEq, Repr, Inhabited

namespace Run

/-- The address after the last byte. -/
def finish (run : Run) : UInt32 := run.start + run.bytes.length.toUInt32

/-- Whether two runs share an address. -/
def overlaps (a b : Run) : Bool := a.start < b.finish && b.start < a.finish

/-- Puts a run into its place among runs in ascending order.  One with the same start gives way. -/
def insert (run : Run) : List Run → List Run
  | [] => [run]
  | other :: rest =>
    if run.start < other.start then run :: other :: rest
    else if run.start == other.start then run :: rest
    else other :: insert run rest

/-- Adds a run to others, none of which it may overlap. -/
def add (runs : List Run) (run : Run) : Except ObjectError (List Run) :=
  match runs.find? run.overlaps with
  | some other => .error (.overlap other.start run.start)
  | none => .ok (run.insert runs)

end Run

/-- Runs while lines are still being added: the last one can yet grow. -/
structure Merge where
  growing : Option Run := none
  complete : List Run := []
  deriving DecidableEq, Repr, Inhabited

namespace Merge

/-- All runs, the growing one included. -/
def close (merge : Merge) : Except ObjectError (List Run) :=
  merge.growing.elim (.ok merge.complete) (Run.add merge.complete)

/-- Adds code at an address: to the growing run if it ends there, and as a new run otherwise. -/
def extend (merge : Merge) (address : UInt32) (bytes : List UInt8) : Except ObjectError Merge :=
  match merge.growing with
  | none => .ok { merge with growing := some ⟨address, bytes⟩ }
  | some run =>
    if run.finish == address then
      .ok { merge with growing := some { run with bytes := run.bytes ++ bytes } }
    else
      (Run.add merge.complete run).map fun complete => ⟨some ⟨address, bytes⟩, complete⟩

/-- Adds the line with the given number.  Lines without an address hold no code. -/
def addLine (merge : Merge) (index : Nat) (line : Line) : Except ObjectError Merge :=
  match line.address with
  | none => .ok merge
  | some address =>
    if line.isPending then .error (.unresolved index)
    else
      match line.bytes with
      | .error error => .error error
      | .ok bytes =>
        if 0x10000 < address.toNat + bytes.length then .error (.addressOverflow address)
        else merge.extend address bytes

/-- Adds lines, the first of which has the number `index`. -/
def addLines (merge : Merge) (index : Nat) : List Line → Except ObjectError Merge
  | [] => .ok merge
  | line :: rest =>
    match merge.addLine index line with
    | .error error => .error error
    | .ok next => next.addLines (index + 1) rest

end Merge

namespace Run

/-- The runs of a list of lines, in ascending order.  There has to be one at least. -/
def ofLines (lines : List Line) : Except ObjectError (List Run) :=
  match (({} : Merge).addLines 0 lines).bind Merge.close with
  | .error error => .error error
  | .ok [] => .error .noCode
  | .ok runs => .ok runs

/-- Runs in ascending order.  Of several runs with the same start, the last one counts. -/
def sorted (runs : List Run) : List Run := runs.foldl (fun others run => run.insert others) []

end Run

end TwoPass
