import TwoPass.Document.Yaml.Cursor
import TwoPass.Text.Numeral

/-!
# Scalars of YAML

Reading plain and quoted scalars.  Both can run over several lines, in which case line ends are
folded.  A plain scalar ends before a comment, before a colon with nothing attached and, within a
flow collection, before a bracket or a comma.

All readers go through the text character by character and count its bytes; what they have read so
far is kept in reverse.
-/

namespace TwoPass.Yaml

/-- What was read: its text, the cursor after it, and the gap that was passed at its end. -/
structure Scanned where
  text : Text
  cursor : Cursor
  gap : Gap
  deriving DecidableEq, Repr

/-! ## Plain scalars -/

/-- Where a plain scalar stands: the least column that its further lines may start at, and whether
it is part of a flow collection. -/
structure PlainContext where
  indent : Int
  inFlow : Bool
  deriving DecidableEq, Repr

/-- Whether a plain scalar ends before the character `c`, the first of a text with the given
remainder. -/
def endsPlain (context : PlainContext) (gap : Gap) (cursor : Cursor) (c : Char) (after : Text) :
    Bool :=
  let tooFarOut := !context.inFlow && (cursor.column : Int) < context.indent
  (gap != .none && (tooFarOut || cursor.atMarker || c == '#')) ||
    (c == ':' && startsOpen after) || (context.inFlow && isFlowIndicator c)

/-- Within a flow collection, a colon in a plain scalar may not touch an indicator. -/
def badFlowColon (context : PlainContext) (c : Char) (after : Text) : Bool :=
  context.inFlow && c == ':' && (after.head?.any fun d => isFlowIndicator d || d == '?')

/-- Reads on in a plain scalar. -/
def scanPlain (context : PlainContext) (index line column : Nat) (read : Text) (gap : Gap) :
    Text → Option Scanned
  | [] => some ⟨read.reverse, ⟨[], index, line, column⟩, gap⟩
  | '\r' :: '\n' :: rest =>
    scanPlain context (index + 2) (line + 1) 0 read (gap.addBreak '\n') rest
  | c :: rest =>
    if isSpace c then
      if c == '\t' && gap.hasBreak && (column : Int) < context.indent then none
      else scanPlain context (index + c.utf8Size) line (column + 1) read (gap.addSpace c) rest
    else if isBreak c then
      scanPlain context (index + c.utf8Size) (line + 1) 0 read (gap.addBreak c) rest
    else
      let cursor : Cursor := ⟨c :: rest, index, line, column⟩
      if endsPlain context gap cursor c rest then some ⟨read.reverse, cursor, gap⟩
      else if badFlowColon context c rest then none
      else
        scanPlain context (index + c.utf8Size) line (column + 1) (c :: (gap.folded.reverse ++ read))
          .none rest

/-! ## Quoted scalars -/

/-- Reads on in a scalar between apostrophes, of which a doubled one stands for itself. -/
def scanSingle (index line column : Nat) (read : Text) (gap : Gap) : Text → Option Scanned
  | [] => none
  | '\r' :: '\n' :: rest => scanSingle (index + 2) (line + 1) 0 read (gap.addBreak '\n') rest
  | '\'' :: '\'' :: rest =>
    scanSingle (index + 2) line (column + 2) ('\'' :: (gap.folded.reverse ++ read)) .none rest
  | c :: rest =>
    if isSpace c then
      scanSingle (index + c.utf8Size) line (column + 1) read (gap.addSpace c) rest
    else if isBreak c then
      scanSingle (index + c.utf8Size) (line + 1) 0 read (gap.addBreak c) rest
    else if (Cursor.mk (c :: rest) index line column).atMarker then none
    else if c == '\'' then
      some ⟨(gap.folded.reverse ++ read).reverse, ⟨rest, index + 1, line, column + 1⟩, .none⟩
    else
      scanSingle (index + c.utf8Size) line (column + 1) (c :: (gap.folded.reverse ++ read)) .none
        rest

/-- The character that a one-letter escape stands for. -/
def simpleEscape? (c : Char) : Option Char :=
  if c == '0' then some (Char.ofNat 0)
  else if c == 'a' then some (Char.ofNat 0x07)
  else if c == 'b' then some (Char.ofNat 0x08)
  else if c == 't' || c == '\t' then some '\t'
  else if c == 'n' then some '\n'
  else if c == 'v' then some (Char.ofNat 0x0B)
  else if c == 'f' then some (Char.ofNat 0x0C)
  else if c == 'r' then some '\r'
  else if c == 'e' then some (Char.ofNat 0x1B)
  else if c == ' ' || c == '"' || c == '/' || c == '\\' then some c
  else if c == 'N' then some (Char.ofNat 0x85)
  else if c == '_' then some (Char.ofNat 0xA0)
  else if c == 'L' then some (Char.ofNat 0x2028)
  else if c == 'P' then some (Char.ofNat 0x2029)
  else none

/-- The number of hexadecimal digits after an escape letter. -/
def escapeDigits (c : Char) : Nat :=
  if c == 'x' then 2 else if c == 'u' then 4 else if c == 'U' then 8 else 0

/-- The character with a code point, which may be neither a surrogate nor past the last one. -/
def ofCodePoint? (n : Nat) : Option Char :=
  if (0xD800 ≤ n && n ≤ 0xDFFF) || 0x10FFFF < n then none else some (Char.ofNat n)

/-- Reads on in a scalar between quotation marks.  Of an escape by number, `pending` digits are
still to come and `code` is the number so far. -/
def scanDouble (index line column : Nat) (read : Text) (gap : Gap) (pending code : Nat) :
    Text → Option Scanned
  | [] => none
  | c :: rest =>
    match pending with
    | remaining + 1 => do
      let digit ← Text.digitOf 16 c
      let number := code * 16 + digit
      if remaining == 0 then
        let escaped ← ofCodePoint? number
        scanDouble (index + 1) line (column + 1) (escaped :: read) .none 0 0 rest
      else scanDouble (index + 1) line (column + 1) read .none remaining number rest
    | 0 =>
      if isSpace c then
        scanDouble (index + c.utf8Size) line (column + 1) read (gap.addSpace c) 0 0 rest
      else if c == '\r' && rest.head? == some '\n' then
        -- The line feed that follows ends the line.
        scanDouble (index + 1) line column read gap 0 0 rest
      else if isBreak c then
        scanDouble (index + c.utf8Size) (line + 1) 0 read (gap.addBreak c) 0 0 rest
      else
        let joined := gap.folded.reverse ++ read
        if (Cursor.mk (c :: rest) index line column).atMarker then none
        else if c == '"' then
          some ⟨joined.reverse, ⟨rest, index + 1, line, column + 1⟩, .none⟩
        else if c == '\\' then
          match rest with
          | '\r' :: '\n' :: more =>
            scanDouble (index + 3) (line + 1) 0 joined (.lines none []) 0 0 more
          | d :: more =>
            if isBreak d then
              scanDouble (index + 1 + d.utf8Size) (line + 1) 0 joined (.lines none []) 0 0 more
            else if escapeDigits d != 0 then
              scanDouble (index + 2) line (column + 2) joined .none (escapeDigits d) 0 more
            else do
              let escaped ← simpleEscape? d
              scanDouble (index + 2) line (column + 2) (escaped :: joined) .none 0 0 more
          | [] => none
        else scanDouble (index + c.utf8Size) line (column + 1) (c :: joined) .none 0 0 rest

end TwoPass.Yaml
