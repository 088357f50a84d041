import TwoPass.Code.Line
import TwoPass.Object.Reader
import TwoPass.Report.Style
import TwoPass.Source.Symbols
import TwoPass.Text.Blank

/-!
# Listings

A listing shows every source line with the address and the bytes it was assembled to, plain for a
file or coloured for a terminal.
-/

namespace TwoPass

namespace Listing

/-- The separator between the columns of a row. -/
def separator : Text := " : ".toList

/-! ## Plain listings -/

/-- The middle column of a row: address and bytes of a line of code. -/
def body (line : Line) : Except ObjectError Text :=
  match line.address with
  | none => .ok "<empty>".toList
  | some address =>
    line.bytes.map fun bytes =>
      Text.addressHex address.toNat ++ " (".toList ++ Text.spacedHex bytes ++ ")".toList

/-- A row of a plain listing. -/
def plainRow (index : Nat) (line : Line) (source : Text) : Except ObjectError Text :=
  (body line).map fun text =>
    Text.decimal index ++ separator ++ text ++ separator ++ Text.trim source

/-! ## Coloured listings -/

/-- The colours of the operands, which repeat in this order. -/
def operandStyle (position : Nat) : Style :=
  match position % 3 with
  | 0 => .blue
  | 1 => .green
  | _ => .magenta

/-- The byte groups of operands, each in its colour, from the operand `position` on. -/
def operandSpans (position : Nat) : List (List UInt8) → List Text
  | [] => []
  | group :: rest =>
    (operandStyle position).paint (Text.spacedHex group) :: operandSpans (position + 1) rest

/-- The byte groups of a line, each in its colour. -/
def spans : List (List UInt8) → List Text
  | [] => []
  | opcode :: operands => Style.red.paint (Text.spacedHex opcode) :: operandSpans 0 operands

/-- A row of a coloured listing. -/
def colouredRow (index : Nat) (line : Line) (source : Text) : Except ObjectError Text :=
  let number := (Text.decimal index).leftpad 4 ' '
  match line.address with
  | none =>
    .ok (Style.dim.paint (number ++ " :".toList ++ List.replicate 20 ' ') ++ separator ++ source)
  | some address =>
    line.byteGroups.map fun groups =>
      number ++ separator ++ Style.yellow.paint (Text.addressHex address.toNat) ++ " (".toList ++
        [' '].intercalate (spans groups) ++ ")".toList ++ separator ++ source

/-! ## Whole listings -/

/-- The rows of a listing from the row `index` on.  The shorter of the two lists decides where it
ends. -/
def rows (row : Nat → Line → Text → Except ObjectError Text) (index : Nat) :
    List Line → List Text → Except ObjectError (List Text)
  | line :: lines, source :: sources => do
    let first ← row index line source
    let rest ← rows row (index + 1) lines sources
    return first :: rest
  | _, _ => .ok []

/-- The plain listing of a program. -/
def plain (lines : List Line) (source : List Text) : Except ObjectError (List Text) :=
  rows plainRow 0 lines source

/-- The coloured listing of a program. -/
def coloured (lines : List Line) (source : List Text) : Except ObjectError (List Text) :=
  rows colouredRow 0 lines source

/-! ## Reading a listing -/

/-- Reads the address and the bytes of a row of a plain listing: `some none` for a line without
code. -/
def readRow? (row : Text) : Option (Option Run) :=
  match row.dropWhile (· != ' ') with
  | ' ' :: ':' :: ' ' :: '<' :: _ => some none
  | ' ' :: ':' :: ' ' :: rest => do
    let address ← Text.numeral? 16 (rest.takeWhile (· != ' '))
    match rest.dropWhile (· != ' ') with
    | ' ' :: '(' :: spaced =>
      let bytes ← Run.readSpaced? (spaced.takeWhile (· != ')'))
      return some ⟨address.toUInt32, bytes⟩
    | _ => none
  | _ => none

/-- Reads the code of a plain listing. -/
def readRows? (rows : List Text) : Option (List Run) :=
  (rows.mapM readRow?).map fun runs => runs.filterMap id

/-! ## Symbols -/

/-- The symbols of a program with their values, labels first. -/
def symbols (symbols : Symbols) : List Text :=
  symbols.labels.map (row .green) ++ symbols.constants.map (row .yellow)
where
  /-- A name, filled up to sixteen characters, and its value. -/
  row (style : Style) (entry : Text × UInt32) : Text :=
    style.paint (entry.1.rightpad 16 ' ') ++ " $".toList ++ Text.addressHex entry.2.toNat

end Listing

end TwoPass
