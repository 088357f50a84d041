import TwoPass.Document.Tree
import TwoPass.Text.Numeral

/-!
# JSON

Reading JSON in its strict form.  The text is first cut into tokens, which are then nested.  A
string whose escapes name half a surrogate pair is a token all the same, but it cannot be read as
text.
-/

namespace TwoPass.Json

/-- A token of JSON. -/
inductive Token where
  | openObject
  | closeObject
  | openArray
  | closeArray
  | colon
  | comma
  | string (text : Option Text)
  /-- A number, a truth value or `null`. -/
  | scalar (scalar : Scalar)
  deriving DecidableEq, Repr, Inhabited

/-! ## Strings -/

/-- The character that a one-letter escape stands for. -/
def simpleEscape? (c : Char) : Option Char :=
  if c == '"' || c == '\\' || c == '/' then some c
  else if c == 'b' then some (Char.ofNat 0x08)
  else if c == 'f' then some (Char.ofNat 0x0C)
  else if c == 'n' then some '\n'
  else if c == 'r' then some '\r'
  else if c == 't' then some '\t'
  else none

/-- Reads a string after its opening quote: the code units it spells, and the text after it.  Code
units in the range of the surrogates come from escapes only. -/
def scanString : Text → Option (List Nat × Text)
  | [] => none
  | '"' :: rest => some ([], rest)
  | '\\' :: 'u' :: a :: b :: c :: d :: rest => do
    let unit ← Text.numeral? 16 [a, b, c, d]
    let (units, after) ← scanString rest
    return (unit :: units, after)
  | '\\' :: c :: rest => do
    let escaped ← simpleEscape? c
    let (units, after) ← scanString rest
    return (escaped.toNat :: units, after)
  | c :: rest =>
    if c.toNat < 0x20 || c == '\\' then none
    else do
      let (units, after) ← scanString rest
      return (c.toNat :: units, after)

/-- The text of a list of code units, in which surrogates have to come in pairs. -/
def ofUnits? : List Nat → Option Text
  | [] => some []
  | unit :: rest =>
    if unit < 0xD800 || 0xDFFF < unit then (ofUnits? rest).map (Char.ofNat unit :: ·)
    else if 0xDC00 ≤ unit then none
    else
      match rest with
      | low :: rest =>
        if 0xDC00 ≤ low && low ≤ 0xDFFF then
          (ofUnits? rest).map
            (Char.ofNat (0x10000 + (unit - 0xD800) * 0x400 + (low - 0xDC00)) :: ·)
        else none
      | [] => none

/-! ## Numbers -/

/-- Takes digits off the front of a text. -/
def scanDigits (text : Text) : Text × Text := text.span fun c => '0' ≤ c && c ≤ '9'

/-- Reads the fraction of a number, if there is one: whether there is, and the text after it. -/
def scanFraction : Text → Option (Bool × Text)
  | '.' :: rest =>
    let (digits, after) := scanDigits rest
    if digits.isEmpty then none else some (true, after)
  | text => some (false, text)

/-- Reads the exponent of a number, if there is one: whether there is, and the text after it. -/
def scanExponent : Text → Option (Bool × Text)
  | c :: rest =>
    if c == 'e' || c == 'E' then
      let unsigned :=
        match rest with
        | '+' :: more => more
        | '-' :: more => more
        | _ => rest
      let (digits, after) := scanDigits unsigned
      if digits.isEmpty then none else some (true, after)
    else some (false, c :: rest)
  | [] => some (false, [])

/-- Reads a number: its value, if it is a natural number of 64 bits that is written with digits
only, and the text after it. -/
def scanNumber (text : Text) : Option (Option Nat × Text) := do
  let negative := text.head? == some '-'
  let (digits, afterDigits) := scanDigits (if negative then text.tail else text)
  if digits.isEmpty || (1 < digits.length && digits.head? == some '0') then none
  let (fraction, afterFraction) ← scanFraction afterDigits
  let (exponent, after) ← scanExponent afterFraction
  let value :=
    if negative || fraction || exponent then none
    else (Text.numeral? 10 digits).filter (· < UInt64.size)
  return (value, after)

/-! ## Tokens -/

/-- Reads the first token of a text that does not start with a blank. -/
def scanToken (c : Char) (rest : Text) : Option (Token × Text) :=
  if c.toNat == 0x7B then some (.openObject, rest)
  else if c.toNat == 0x7D then some (.closeObject, rest)
  else if c == '[' then some (.openArray, rest)
  else if c == ']' then some (.closeArray, rest)
  else if c == ':' then some (.colon, rest)
  else if c == ',' then some (.comma, rest)
  else if c == '"' then
    (scanString rest).map fun result => (.string (ofUnits? result.1), result.2)
  else if c == '-' || ('0' ≤ c && c ≤ '9') then
    (scanNumber (c :: rest)).map fun result => (.scalar { number := result.1 }, result.2)
  else if (c :: rest).take 4 == "true".toList then
    some (.scalar { truth := some true }, rest.drop 3)
  else if (c :: rest).take 5 == "false".toList then
    some (.scalar { truth := some false }, rest.drop 4)
  else if (c :: rest).take 4 == "null".toList then some (.scalar {}, rest.drop 3)
  else none

/-- The blanks that may stand between tokens. -/
def isSpace (c : Char) : Bool := c == ' ' || c == '\t' || c == '\n' || c == '\r'

/-- Cuts a text into at most `fuel` tokens and blanks. -/
def tokensWithin : Nat → Text → Option (List Token)
  | _, [] => some []
  | 0, _ :: _ => none
  | fuel + 1, c :: rest =>
    if isSpace c then tokensWithin fuel rest
    else do
      let (token, after) ← scanToken c rest
      let tokens ← tokensWithin fuel after
      return token :: tokens

/-- The tokens of a text.  Each of them takes one character at least. -/
def tokens? (text : Text) : Option (List Token) := tokensWithin text.length text

/-! ## Nesting -/

mutual

/-- Reads one value: the value and the tokens after it. -/
def parseValue : Nat → List Token → Option (Tree × List Token)
  | _ + 1, .string text :: rest => some (.scalar { text }, rest)
  | _ + 1, .scalar scalar :: rest => some (.scalar scalar, rest)
  | _ + 1, .openArray :: .closeArray :: rest => some (.sequence [], rest)
  | fuel + 1, .openArray :: rest =>
    (parseItems fuel rest).map fun result => (.sequence result.1, result.2)
  | _ + 1, .openObject :: .closeObject :: rest => some (.mapping [], rest)
  | fuel + 1, .openObject :: rest =>
    (parseFields fuel rest).map fun result => (.mapping result.1, result.2)
  | _, _ => none

/-- Reads the items of an array up to its end. -/
def parseItems : Nat → List Token → Option (List Tree × List Token)
  | 0, _ => none
  | fuel + 1, tokens => do
    let (item, rest) ← parseValue fuel tokens
    match rest with
    | .comma :: more =>
      let (items, after) ← parseItems fuel more
      return (item :: items, after)
    | .closeArray :: after => return ([item], after)
    | _ => none

/-- Reads the fields of an object up to its end. -/
def parseFields : Nat → List Token → Option (List (Tree × Tree) × List Token)
  | fuel + 1, .string key :: .colon :: tokens => do
    let (value, rest) ← parseValue fuel tokens
    let field := (Tree.scalar { text := key }, value)
    match rest with
    | .comma :: more =>
      let (fields, after) ← parseFields fuel more
      return (field :: fields, after)
    | .closeObject :: after => return ([field], after)
    | _ => none
  | _, _ => none

end

/-- The document that a text spells.  Every call of the readers above takes a token, so that the
number of tokens is enough fuel for all of them. -/
def parse? (text : Text) : Option Tree := do
  let tokens ← tokens? text
  match ← parseValue (2 * tokens.length) tokens with
  | (tree, []) => return tree
  | _ => none

end TwoPass.Json
