import TwoPass.Code.Encode
import TwoPass.Source.Statement

/-!
# Programs: laying out the lines

The first pass reads the source from top to bottom.  It keeps the address of the next byte of code,
which the first `ORG` sets and every line of code advances by its size, gives labels their addresses
and constants their values, and assembles every line.  Operands that name labels stay pending.

A step of the pass takes one line; the pass is the repetition of that step.
-/

namespace TwoPass

/-- An assembled program: one line for each source line, and its symbols. -/
structure Program where
  lines : List Line := []
  symbols : Symbols := {}
  deriving DecidableEq, Repr, Inhabited

/-- What an assembly depends on besides the source. -/
structure Setting where
  table : Table
  /-- Whether there may be more than one `ORG`, each of which starts a new segment. -/
  multipleOrigins : Bool := false
  deriving DecidableEq, Repr, Inhabited

/-- What the first pass knows between two lines. -/
structure Progress where
  symbols : Symbols := {}
  /-- The address of the next byte of code, once an `ORG` has been seen. -/
  target : Option UInt32 := none
  /-- Whether `END` has been seen. -/
  ended : Bool := false
  deriving DecidableEq, Repr, Inhabited

namespace Progress

/-- The address of the next byte of code. -/
def requireTarget (progress : Progress) : Except Fault UInt32 :=
  progress.target.elim (.error .missingOrigin) .ok

/-- The byte that a token of `FCB` denotes. -/
def formByte (symbols : Symbols) (token : Text) : Except Fault UInt8 :=
  match Literal.value? token with
  | some word => toByte word
  | none =>
    if token.isEmpty then .error .badLiteral
    else
      match symbols.constant? token with
      | some word => toByte word
      | none => .error .unknownConstant
where
  /-- A word that fits one byte. -/
  toByte (word : UInt32) : Except Fault UInt8 := (Symbols.checkLimit byteMax word).map (·.toUInt8)

/-- The first byte of code after a line. -/
def advance (progress : Progress) (line : Line) : Progress :=
  match line.address, line.opcode with
  | some address, some _ => { progress with target := some (address + line.size.toUInt32) }
  | _, _ => progress

/-- Obeys a statement: the assembled line, and what is known after it. -/
def obey (setting : Setting) (progress : Progress) : Statement → Except Fault (Line × Progress)
  | .blank => .ok (.empty, progress)
  | .label name => do
    let address ← progress.requireTarget
    let symbols ← progress.symbols.defineLabel name address
    return (.empty, { progress with symbols })
  | .constant name value => do
    let word ← Literal.parse value
    let symbols ← progress.symbols.defineConstant name word
    return (.empty, { progress with symbols })
  | .origin address =>
    if progress.target.isSome && !setting.multipleOrigins then .error .originRepeated
    else do
      let word ← Literal.parse address
      let target ← Symbols.checkLimit wordMax word
      return (.empty, { progress with target := some target })
  | .finish => .ok (.empty, { progress with ended := true })
  | .formBytes tokens => do
    let address ← progress.requireTarget
    let bytes ← tokens.mapM (formByte progress.symbols)
    let line := Line.data address bytes
    return (line, progress.advance line)
  | .instruction mnemonic operands => do
    let address ← progress.requireTarget
    let instruction ← Instruction.encode setting.table progress.symbols mnemonic operands
    let line := instruction.toLine address
    return (line, progress.advance line)

/-- Takes one source line.  After `END` only blank lines may follow, and any other line is refused
for that reason alone. -/
def step (setting : Setting) (progress : Progress) (source : Text) :
    Except Fault (Line × Progress) :=
  match Statement.parse source with
  | .ok .blank => .ok (.empty, progress)
  | parsed =>
    if progress.ended then .error .codeAfterEnd
    else
      match parsed with
      | .ok statement => progress.obey setting statement
      | .error fault => .error fault

/-- Takes source lines one after the other, the first of which has the number `index`. -/
def run (setting : Setting) (progress : Progress) (index : Nat) :
    List Text → Except Diagnostic (List Line × Progress)
  | [] => .ok ([], progress)
  | source :: rest =>
    match progress.step setting source with
    | .error fault => .error ⟨index, fault⟩
    | .ok (line, next) =>
      (next.run setting (index + 1) rest).map fun result => (line :: result.1, result.2)

end Progress

namespace Program

/-- The first pass.  A source without `END` is at fault one line after its last. -/
def layOut (setting : Setting) (source : List Text) : Except Diagnostic Program :=
  match ({} : Progress).run setting 0 source with
  | .error diagnostic => .error diagnostic
  | .ok (lines, progress) =>
    if progress.ended then .ok ⟨lines, progress.symbols⟩
    else .error ⟨source.length, .missingEnd⟩

end Program

end TwoPass
