import TwoPass.Text.Basic

/-!
# Reading positions in YAML

Layout matters in YAML: a cursor is the text that is still to be read together with the line and the
column that have been reached.
-/

namespace TwoPass.Yaml

/-- A reading position. -/
structure Cursor where
  /-- The text that is still to be read. -/
  rest : Text
  /-- How many bytes have been read. -/
  index : Nat := 0
  line : Nat := 0
  column : Nat := 0
  deriving DecidableEq, Repr, Inhabited

/-! ## Kinds of characters -/

/-- Characters that separate tokens within a line. -/
def isSpace (c : Char) : Bool := c == ' ' || c == '\t'

/-- Characters that end a line. -/
def isBreak (c : Char) : Bool :=
  c == '\n' || c == '\r' || c.toNat == 0x85 || c.toNat == 0x2028 || c.toNat == 0x2029

/-- The byte order mark. -/
def isOrderMark (c : Char) : Bool := c.toNat == 0xFEFF

/-- The brackets and the comma of flow collections. -/
def isFlowIndicator (c : Char) : Bool :=
  c == ',' || c == '[' || c == ']' || c.toNat == 0x7B || c.toNat == 0x7D

/-- Characters that a document may hold. -/
def isAllowed (c : Char) : Bool :=
  let n := c.toNat
  n == 0x09 || n == 0x0A || n == 0x0D || (0x20 ≤ n && n ≤ 0x7E) || n == 0x85 ||
    (0xA0 ≤ n && n ≤ 0xFFFD) || 0x10000 ≤ n

/-- Whether a text ends or has a space or a line end at its front. -/
def startsOpen : Text → Bool
  | [] => true
  | c :: _ => isSpace c || isBreak c

/-- Whether a text starts with three times the character `mark` and nothing attached to it. -/
def startsMarker (mark : Char) : Text → Bool
  | a :: b :: c :: rest => a == mark && b == mark && c == mark && startsOpen rest
  | _ => false

/-- The character that a line end is read as: only the Unicode separators stay what they are. -/
def breakChar (c : Char) : Char :=
  if c.toNat == 0x2028 || c.toNat == 0x2029 then c else '\n'

namespace Cursor

/-- Passes `count` characters of a line, all of them of one byte. -/
def skip (cursor : Cursor) (count : Nat) : Cursor :=
  { cursor with
    rest := cursor.rest.drop count
    index := cursor.index + count
    column := cursor.column + count }

/-- Whether a document marker stands here, which needs the first column. -/
def atMarker (cursor : Cursor) : Bool :=
  cursor.column == 0 && (startsMarker '-' cursor.rest || startsMarker '.' cursor.rest)

end Cursor

/-! ## Gaps -/

/-- What has been passed since the last character of a scalar: nothing, spaces, or line ends.  The
first line end can be missing, if it was escaped. -/
inductive Gap where
  | none
  | spaces (text : Text)
  | lines (first : Option Char) (further : Text)
  deriving DecidableEq, Repr, Inhabited

namespace Gap

/-- The gap after one more space. -/
def addSpace (c : Char) : Gap → Gap
  | none => spaces [c]
  | spaces text => spaces (text ++ [c])
  | lines first further => lines first further

/-- The gap after one more line end. -/
def addBreak (c : Char) : Gap → Gap
  | lines first further => lines first (further ++ [breakChar c])
  | _ => lines (some (breakChar c)) []

/-- Whether there is a line end in the gap. -/
def hasBreak : Gap → Bool
  | lines _ _ => true
  | _ => false

/-- What a gap within a scalar is read as: a single line end is a space, of several the first is
dropped. -/
def folded : Gap → Text
  | none => []
  | spaces text => text
  | lines first further =>
    match first with
    | some c => if c == '\n' then (if further.isEmpty then [' '] else further) else c :: further
    | Option.none => further

end Gap

end TwoPass.Yaml
