import TwoPass.Document.Plain
import TwoPass.Document.Tree
import TwoPass.Document.Yaml.Token

/-!
# YAML

Reading documents of block and flow collections with plain and quoted scalars.  A text holds a
single document.  Anchors, tags, directives and block scalars are not part of what is read here.

Where a value is left out, it is an absent scalar.
-/

namespace TwoPass.Yaml

/-- The scalar of a token.  Only a scalar without quotes can be read as anything but text. -/
def scalarTree (plain : Bool) (text : Text) : Tree :=
  if plain then
    .scalar
      { text := some text
        number := Plain.natural? UInt64.size text
        truth := Plain.truth? text
        absent := text.isEmpty }
  else .ofText text

/-- A value that is left out. -/
def absentTree : Tree := scalarTree true []

/-- Whether the list of tokens is at its end or goes on with one of the given ones. -/
def goesOnWith (tokens : List Token) (marks : List Token) : Bool :=
  match tokens with
  | [] => true
  | token :: _ => marks.contains token

/-- The tokens after a comma. -/
def afterComma? : List Token → Option (List Token)
  | .comma :: rest => some rest
  | _ => none

mutual

/-- Reads a node: a scalar or a collection.  Only within block collections may it be one itself, and
only a value may be a block sequence that is not indented. -/
def parseNode (inBlock unindented : Bool) : Nat → List Token → Option (Tree × List Token)
  | 0, _ => none
  | fuel + 1, tokens =>
    match tokens with
    | .scalar plain text :: rest => some (scalarTree plain text, rest)
    | .flowSequence :: rest =>
      (parseFlowItems true fuel rest).map fun result => (.sequence result.1, result.2)
    | .flowMapping :: rest =>
      (parseFlowEntries true fuel rest).map fun result => (.mapping result.1, result.2)
    | .blockSequence :: rest =>
      if inBlock then
        (parseItems fuel rest).map fun result => (.sequence result.1, result.2)
      else none
    | .blockMapping :: rest =>
      if inBlock then
        (parseEntries fuel rest).map fun result => (.mapping result.1, result.2)
      else none
    | .item :: _ =>
      if unindented then
        (parseUnindented fuel tokens).map fun result => (.sequence result.1, result.2)
      else none
    | _ => none

/-- Reads the items of a block sequence up to its end. -/
def parseItems : Nat → List Token → Option (List Tree × List Token)
  | fuel + 1, .item :: rest => do
    let (node, after) ←
      if goesOnWith rest [.item, .blockEnd] then some (absentTree, rest)
      else parseNode true false fuel rest
    let (items, final) ← parseItems fuel after
    return (node :: items, final)
  | _ + 1, .blockEnd :: rest => some ([], rest)
  | _, _ => none

/-- Reads the items of a block sequence that is not indented further than its key. -/
def parseUnindented : Nat → List Token → Option (List Tree × List Token)
  | 0, _ => none
  | fuel + 1, .item :: rest => do
    let (node, after) ←
      if goesOnWith rest [.item, .key, .value, .blockEnd] then some (absentTree, rest)
      else parseNode true false fuel rest
    let (items, final) ← parseUnindented fuel after
    return (node :: items, final)
  | _ + 1, tokens => some ([], tokens)

/-- Reads the entries of a block mapping up to its end. -/
def parseEntries : Nat → List Token → Option (List (Tree × Tree) × List Token)
  | fuel + 1, .key :: rest => do
    let (key, afterKey) ←
      if goesOnWith rest [.key, .value, .blockEnd] then some (absentTree, rest)
      else parseNode true true fuel rest
    let (value, afterValue) ←
      match afterKey with
      | .value :: more =>
        if goesOnWith more [.key, .value, .blockEnd] then some (absentTree, more)
        else parseNode true true fuel more
      | _ => some (absentTree, afterKey)
    let (entries, final) ← parseEntries fuel afterValue
    return ((key, value) :: entries, final)
  | _ + 1, .blockEnd :: rest => some ([], rest)
  | _, _ => none

/-- Reads the items of a flow sequence up to its end; all but the first follow a comma.  A single
entry of a mapping can be an item. -/
def parseFlowItems (isFirst : Bool) : Nat → List Token → Option (List Tree × List Token)
  | 0, _ => none
  | fuel + 1, tokens =>
    match tokens with
    | .flowSequenceEnd :: rest => some ([], rest)
    | _ => do
      let body ← if isFirst then some tokens else afterComma? tokens
      match body with
      | .flowSequenceEnd :: rest => return ([], rest)
      | .key :: _ =>
        let (entry, after) ← parseFlowEntry true .flowSequenceEnd fuel body
        let (items, final) ← parseFlowItems false fuel after
        return (.mapping [entry] :: items, final)
      | _ =>
        let (item, after) ← parseNode false false fuel body
        let (items, final) ← parseFlowItems false fuel after
        return (item :: items, final)

/-- Reads the entries of a flow mapping up to its end; all but the first follow a comma. -/
def parseFlowEntries (isFirst : Bool) :
    Nat → List Token → Option (List (Tree × Tree) × List Token)
  | 0, _ => none
  | fuel + 1, tokens =>
    match tokens with
    | .flowMappingEnd :: rest => some ([], rest)
    | _ => do
      let body ← if isFirst then some tokens else afterComma? tokens
      match body with
      | .flowMappingEnd :: rest => return ([], rest)
      | _ =>
        let (entry, after) ← parseFlowEntry false .flowMappingEnd fuel body
        let (entries, final) ← parseFlowEntries false fuel after
        return (entry :: entries, final)

/-- Reads one entry of a mapping within a flow collection that ends with the token `close`.  A key
that is left out in a single entry, one that is an item of a sequence, takes the token after it
along. -/
def parseFlowEntry (single : Bool) (close : Token) :
    Nat → List Token → Option ((Tree × Tree) × List Token)
  | 0, _ => none
  | fuel + 1, .key :: rest => do
    let (key, afterKey) ←
      if goesOnWith rest [.value, .comma, close] then
        some (absentTree, if single then rest.tail else rest)
      else parseNode false false fuel rest
    match afterKey with
    | .value :: more =>
      let (value, after) ←
        if goesOnWith more [.comma, close] then some (absentTree, more)
        else parseNode false false fuel more
      return ((key, value), after)
    | _ => return ((key, absentTree), afterKey)
  | fuel + 1, tokens => do
    let (key, after) ← parseNode false false fuel tokens
    return ((key, absentTree), after)

end

/-- The document that a text spells.  An empty text is a document that is left out. -/
def parse? (text : Text) : Option Tree := do
  let tokens ← tokens? text
  let fuel := 2 * tokens.length + 2
  let (tree, rest) ←
    match tokens with
    | [] => some (absentTree, [])
    | .documentStart :: body =>
      if goesOnWith body [.documentStart, .documentEnd] then some (absentTree, body)
      else parseNode true false fuel body
    | _ => parseNode true false fuel tokens
  if rest.all (· == .documentEnd) then some tree else none

end TwoPass.Yaml
