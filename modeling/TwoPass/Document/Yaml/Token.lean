import TwoPass.Document.Yaml.Scalar

/-!
# Tokens of YAML

Cutting a document into tokens.  The nesting of block collections is given by indentation alone, so
that tokens which open and close them are produced here as well.

Whether a scalar or a flow collection is a key shows only when a colon follows it on the same line.
Until then it is remembered as a candidate, together with its place among the tokens, where the
tokens of a key are put in afterwards.
-/

namespace TwoPass.Yaml

/-- A token of YAML. -/
inductive Token where
  | documentStart
  | documentEnd
  | blockSequence
  | blockMapping
  | blockEnd
  | flowSequence
  | flowSequenceEnd
  | flowMapping
  | flowMappingEnd
  /-- A dash before an item of a block sequence. -/
  | item
  /-- A comma between the entries of a flow collection. -/
  | comma
  | key
  | value
  /-- A scalar, and whether it stands without quotes. -/
  | scalar (plain : Bool) (text : Text)
  deriving DecidableEq, Repr, Inhabited

/-- A token that may turn out to be a key. -/
structure Candidate where
  /-- Whether nothing but a key can stand there. -/
  required : Bool
  /-- The number of tokens before it. -/
  position : Nat
  index : Nat
  line : Nat
  column : Nat
  deriving DecidableEq, Repr, Inhabited

/-- What is known while a document is cut into tokens. -/
structure Scanner where
  cursor : Cursor
  tokens : Array Token := #[]
  /-- The column of the innermost block collection, and those of the ones around it. -/
  indent : Int := -1
  outerIndents : List Int := []
  /-- Whether a key may start here. -/
  keyAllowed : Bool := true
  /-- The candidate of the innermost flow collection, and those of the ones around it. -/
  candidate : Option Candidate := none
  outerCandidates : List (Option Candidate) := []
  deriving Repr, Inhabited

namespace Scanner

/-- Whether a flow collection is open. -/
def inFlow (scanner : Scanner) : Bool := !scanner.outerCandidates.isEmpty

/-- Appends a token. -/
def push (scanner : Scanner) (token : Token) : Scanner :=
  { scanner with tokens := scanner.tokens.push token }

/-- Appends the token that the next `count` characters are. -/
def take (scanner : Scanner) (count : Nat) (token : Token) : Scanner :=
  { scanner.push token with cursor := scanner.cursor.skip count }

/-! ## Indentation -/

/-- Opens a block collection at a column that is further in than the innermost one.  Its token goes
before the one at `position`. -/
def openBlock (scanner : Scanner) (column position : Nat) (token : Token) : Scanner :=
  if scanner.inFlow || (column : Int) ≤ scanner.indent then scanner
  else
    { scanner with
      tokens := scanner.tokens.insertIdxIfInBounds position token
      outerIndents := scanner.indent :: scanner.outerIndents
      indent := column }

/-- Closes the block collections that are further in than a column, innermost first. -/
def closeIndents (column indent : Int) (tokens : Array Token) :
    List Int → Int × List Int × Array Token
  | [] => (indent, [], tokens)
  | outer :: rest =>
    if column < indent then closeIndents column outer (tokens.push .blockEnd) rest
    else (indent, outer :: rest, tokens)

/-- Closes the block collections that are further in than a column.  In a flow collection, columns
do not count. -/
def closeBlocks (scanner : Scanner) (column : Int) : Scanner :=
  if scanner.inFlow then scanner
  else
    let (indent, outerIndents, tokens) :=
      closeIndents column scanner.indent scanner.tokens scanner.outerIndents
    { scanner with indent, outerIndents, tokens }

/-! ## Candidates -/

/-- Drops the candidate of the innermost flow collection, which may not be a required one. -/
def dropCandidate (scanner : Scanner) : Option Scanner :=
  if scanner.candidate.any (·.required) then none
  else some { scanner with candidate := none }

/-- Takes the token that comes next for a candidate, where a key is allowed. -/
def saveCandidate (scanner : Scanner) : Option Scanner :=
  if scanner.keyAllowed then do
    let dropped ← scanner.dropCandidate
    let cursor := scanner.cursor
    return { dropped with
      candidate := some
        { required := !scanner.inFlow && scanner.indent == (cursor.column : Int)
          position := scanner.tokens.size
          index := cursor.index
          line := cursor.line
          column := cursor.column } }
  else some scanner

/-- Whether a candidate is on an earlier line or more than 1024 bytes back. -/
def isStale (cursor : Cursor) (candidate : Candidate) : Bool :=
  candidate.line < cursor.line || candidate.index + 1024 < cursor.index

/-- Drops all candidates that have become too old, none of which may be required. -/
def dropStale (scanner : Scanner) : Option Scanner :=
  let stale (candidate : Option Candidate) : Bool := candidate.any (isStale scanner.cursor)
  let all := scanner.candidate :: scanner.outerCandidates
  if all.any fun candidate => stale candidate && candidate.any (·.required) then none
  else
    some { scanner with
      candidate := scanner.candidate.filter (!isStale scanner.cursor ·)
      outerCandidates := scanner.outerCandidates.map (·.filter (!isStale scanner.cursor ·)) }

/-! ## Spaces and comments -/

/-- Passes spaces, comments and line ends.  Tabs do not count as spaces where a key may start, and a
key may start on every new line outside flow collections.  A byte order mark at the start of a line
is passed as well and takes up a column. -/
def skipSpace (inFlow keyAllowed inComment : Bool) (index line column : Nat) :
    Text → Cursor × Bool
  | [] => (⟨[], index, line, column⟩, keyAllowed)
  | '\r' :: '\n' :: rest =>
    skipSpace inFlow (keyAllowed || !inFlow) false (index + 2) (line + 1) 0 rest
  | c :: rest =>
    if isBreak c then
      skipSpace inFlow (keyAllowed || !inFlow) false (index + c.utf8Size) (line + 1) 0 rest
    else if inComment || c == '#' then
      skipSpace inFlow keyAllowed true (index + c.utf8Size) line (column + 1) rest
    else if c == ' ' || (c == '\t' && (inFlow || !keyAllowed)) ||
        (column == 0 && isOrderMark c) then
      skipSpace inFlow keyAllowed false (index + c.utf8Size) line (column + 1) rest
    else (⟨c :: rest, index, line, column⟩, keyAllowed)

/-- Goes to the first character of the next token and closes what ends before it. -/
def advance (scanner : Scanner) : Option Scanner := do
  let cursor := scanner.cursor
  let (next, keyAllowed) :=
    skipSpace scanner.inFlow scanner.keyAllowed false cursor.index cursor.line cursor.column
      cursor.rest
  let moved ← dropStale { scanner with cursor := next, keyAllowed }
  return moved.closeBlocks next.column

/-! ## Single tokens -/

/-- A document marker closes all block collections. -/
def takeMarker (scanner : Scanner) (token : Token) : Option Scanner := do
  let closed ← (scanner.closeBlocks (-1)).dropCandidate
  return { closed.take 3 token with keyAllowed := false }

/-- The start of a flow collection, which as a whole may be a key. -/
def takeFlowStart (scanner : Scanner) (token : Token) : Option Scanner := do
  let saved ← scanner.saveCandidate
  return { saved.take 1 token with
    candidate := none
    outerCandidates := saved.candidate :: saved.outerCandidates
    keyAllowed := true }

/-- The end of a flow collection. -/
def takeFlowEnd (scanner : Scanner) (token : Token) : Option Scanner := do
  let dropped ← scanner.dropCandidate
  let taken := { dropped.take 1 token with keyAllowed := false }
  match dropped.outerCandidates with
  | [] => return taken
  | candidate :: outerCandidates => return { taken with candidate, outerCandidates }

/-- A comma. -/
def takeComma (scanner : Scanner) : Option Scanner := do
  let dropped ← scanner.dropCandidate
  return { dropped.take 1 .comma with keyAllowed := true }

/-- A dash before an item. -/
def takeItem (scanner : Scanner) : Option Scanner :=
  if !scanner.inFlow && !scanner.keyAllowed then none
  else do
    let opened := scanner.openBlock scanner.cursor.column scanner.tokens.size .blockSequence
    let dropped ← opened.dropCandidate
    return { dropped.take 1 .item with keyAllowed := true }

/-- A question mark before a key. -/
def takeKey (scanner : Scanner) : Option Scanner :=
  if !scanner.inFlow && !scanner.keyAllowed then none
  else do
    let opened := scanner.openBlock scanner.cursor.column scanner.tokens.size .blockMapping
    let dropped ← opened.dropCandidate
    return { dropped.take 1 .key with keyAllowed := !scanner.inFlow }

/-- A colon before a value.  If there is a candidate, it is the key. -/
def takeValue (scanner : Scanner) : Option Scanner :=
  match scanner.candidate with
  | some candidate =>
    let keyed :=
      { scanner with
        tokens := scanner.tokens.insertIdxIfInBounds candidate.position .key
        candidate := none }
    let opened := keyed.openBlock candidate.column candidate.position .blockMapping
    some { opened.take 1 .value with keyAllowed := false }
  | none =>
    if !scanner.inFlow && !scanner.keyAllowed then none
    else
      let opened := scanner.openBlock scanner.cursor.column scanner.tokens.size .blockMapping
      some { opened.take 1 .value with keyAllowed := !scanner.inFlow }

/-- A scalar that was read from the cursor of the scanner. -/
def takeScalar (scanner : Scanner) (plain : Bool) (scanned : Option Scanned) : Option Scanner := do
  let saved ← scanner.saveCandidate
  let result ← scanned
  return { saved.push (.scalar plain result.text) with
    cursor := result.cursor
    keyAllowed := result.gap.hasBreak }

/-- Whether a plain scalar can start with the character `c`, the first of a text with the given
remainder. -/
def startsPlain (inFlow : Bool) (c : Char) (after : Text) : Bool :=
  let isIndicator :=
    isSpace c || isBreak c || isFlowIndicator c || "-?:#&*!|>'\"%@`".toList.contains c
  !isIndicator || (c == '-' && !(after.head?.any isSpace)) ||
    (!inFlow && (c == '?' || c == ':') && !startsOpen after)

/-- Takes the next token, the first character of which is `c`. -/
def takeToken (scanner : Scanner) (c : Char) (after : Text) : Option Scanner :=
  let cursor := scanner.cursor
  let atStart := cursor.column == 0
  if atStart && startsMarker '-' cursor.rest then scanner.takeMarker .documentStart
  else if atStart && startsMarker '.' cursor.rest then scanner.takeMarker .documentEnd
  else if c == '[' then scanner.takeFlowStart .flowSequence
  else if c.toNat == 0x7B then scanner.takeFlowStart .flowMapping
  else if c == ']' then scanner.takeFlowEnd .flowSequenceEnd
  else if c.toNat == 0x7D then scanner.takeFlowEnd .flowMappingEnd
  else if c == ',' then scanner.takeComma
  else if c == '-' && startsOpen after then scanner.takeItem
  else if c == '?' && (scanner.inFlow || startsOpen after) then scanner.takeKey
  else if c == ':' && (scanner.inFlow || startsOpen after) then scanner.takeValue
  else if c == '\'' then
    scanner.takeScalar false
      (scanSingle (cursor.index + 1) cursor.line (cursor.column + 1) [] .none after)
  else if c == '"' then
    scanner.takeScalar false
      (scanDouble (cursor.index + 1) cursor.line (cursor.column + 1) [] .none 0 0 after)
  else if startsPlain scanner.inFlow c after then
    let context : PlainContext := ⟨scanner.indent + 1, scanner.inFlow⟩
    scanner.takeScalar true
      (scanPlain context cursor.index cursor.line cursor.column [] .none cursor.rest)
  else none

/-- The tokens of the whole text, if there are at most `fuel` of them. -/
def run : Nat → Scanner → Option (List Token)
  | 0, _ => none
  | fuel + 1, scanner => do
    let next ← scanner.advance
    match next.cursor.rest with
    | [] =>
      let closed ← (next.closeBlocks (-1)).dropCandidate
      return closed.tokens.toList
    | c :: after => do
      let taken ← next.takeToken c after
      taken.run fuel

end Scanner

/-- The tokens of a text. -/
def tokens? (text : Text) : Option (List Token) :=
  if text.all isAllowed then Scanner.run (text.length + 1) { cursor := { rest := text } }
  else none

end TwoPass.Yaml
