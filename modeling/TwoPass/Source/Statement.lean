import TwoPass.Source.Fault
import TwoPass.Text.Blank

/-!
# Statements

A source line up to its first asterisk is a statement.  A line that starts in the first column
defines a label or a constant; an indented line holds a directive or an instruction.  Tokens are
kept as written: what they denote is decided where they are used.
-/

namespace TwoPass

/-- What a source line says. -/
inductive Statement where
  /-- Nothing, or a comment only. -/
  | blank
  /-- `NAME` or `NAME:` in the first column. -/
  | label (name : Text)
  /-- `NAME EQU value` in the first column. -/
  | constant (name value : Text)
  /-- `ORG address` -/
  | origin (address : Text)
  /-- `END` -/
  | finish
  /-- `FCB b,b,b` -/
  | formBytes (tokens : List Text)
  /-- A mnemonic and its operands. -/
  | instruction (mnemonic : Text) (operands : List Text)
  deriving DecidableEq, Repr, Inhabited

namespace Statement

/-- The words of a line before its comment. -/
def codeWords (line : Text) : List Text := Text.words (line.takeWhile (· != '*'))

/-- The statement of a line that starts in the first column. -/
def parseMargin (head : Text) : List Text → Except Fault Statement
  | [] =>
    let name := Text.dropLast ':' head
    if name.isEmpty then .error .badOperand else .ok (.label name)
  | keyword :: operands =>
    if Text.sameWord keyword "equ".toList then
      match operands with
      | [] => .error .missingOperand
      | [value] => .ok (.constant head value)
      | _ => .error .extraOperand
    else .error .missingMargin

/-- The statement of an indented line. -/
def parseIndented (head : Text) (operands : List Text) : Except Fault Statement :=
  if Text.sameWord head "org".toList then
    match operands with
    | [] => .error .missingOperand
    | [address] => .ok (.origin address)
    | _ => .error .extraOperand
  else if Text.sameWord head "end".toList then
    match operands with
    | [] => .ok .finish
    | _ => .error .extraOperand
  else if Text.sameWord head "fcb".toList then
    match operands with
    | [] => .error .missingOperand
    | [bytes] => .ok (.formBytes (bytes.splitOn ','))
    | _ => .error .extraOperand
  else .ok (.instruction head operands)

/-- The statement of a line. -/
def parse (line : Text) : Except Fault Statement :=
  match codeWords line with
  | [] => .ok .blank
  | head :: operands =>
    if Text.startsBlank line then parseIndented head operands else parseMargin head operands

/-- The plainest line that says a statement. -/
def render : Statement → Text
  | blank => []
  | label name => name ++ [':']
  | constant name value => name ++ " EQU ".toList ++ value
  | origin address => " ORG ".toList ++ address
  | finish => " END".toList
  | formBytes tokens => " FCB ".toList ++ [','].intercalate tokens
  | instruction mnemonic operands => ' ' :: [' '].intercalate (mnemonic :: operands)

end Statement

end TwoPass
