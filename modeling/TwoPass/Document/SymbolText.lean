import TwoPass.Document.Plain
import TwoPass.Document.Yaml.Cursor
import TwoPass.Report.SymbolMap
import TwoPass.Text.Utf8

/-!
# Symbol maps as documents

A symbol map is written in YAML, as a mapping of labels and one of constants.  A name is written
plain where it reads back as the same text, between apostrophes where it would be taken for
something else, and between quotation marks where it holds characters that cannot be shown.  A name
with line feeds is written line by line.
-/

namespace TwoPass.SymbolMap

/-! ## Quotation -/

/-- Characters that can be shown as they are. -/
def isPrintable (c : Char) : Bool :=
  let n := c.toNat
  n == 0x0A || (0x20 ≤ n && n ≤ 0x7E) ||
    (0xA0 ≤ n && n != 0xFEFF && n != 0xFFFE && n != 0xFFFF)

/-- Characters that start something else than a plain scalar. -/
def isIndicator (c : Char) : Bool := "#,[]\x7b\x7d&*!|>'\"%@`".toList.contains c

/-- Whether there is a colon before a blank or a number sign after one. -/
def hasInnerIndicator : Bool → Text → Bool
  | _, [] => false
  | afterBlank, c :: rest =>
    (c == ':' && Yaml.startsOpen rest) || (c == '#' && afterBlank) ||
      hasInnerIndicator (Yaml.isSpace c || Yaml.isBreak c) rest

/-- Whether the start of a text is that of something else than a plain scalar. -/
def hasLeadingIndicator : Text → Bool
  | [] => false
  | c :: rest =>
    isIndicator c || ((c == '-' || c == '?') && Yaml.startsOpen rest) ||
      (c :: rest).take 3 == "---".toList || (c :: rest).take 3 == "...".toList

/-- Whether a text cannot be written without any quotes. -/
def needsQuotes (text : Text) : Bool :=
  Plain.isReserved text || hasLeadingIndicator text || hasInnerIndicator true text ||
    text.head? == some ' ' || text.getLast? == some ' '

/-- Whether a text holds characters that cannot be shown. -/
def needsEscapes (text : Text) : Bool := text.any fun c => !isPrintable c

/-- Whether a text holds a line end. -/
def hasBreak (text : Text) : Bool := text.any Yaml.isBreak

/-- Whether a text ends with a line end. -/
def endsWithBreak (text : Text) : Bool := text.getLast?.any Yaml.isBreak

/-- Whether a character of a first kind stands directly before one of a second kind. -/
def hasAdjacent (first second : Char → Bool) : Text → Bool
  | a :: b :: rest => (first a && second b) || hasAdjacent first second (b :: rest)
  | _ => false

/-- The ways of writing a name. -/
inductive Form where
  | plain
  /-- Between apostrophes. -/
  | apostrophes
  /-- Between quotation marks, with escapes. -/
  | quotationMarks
  /-- Line by line, indented under a bar. -/
  | block
  deriving DecidableEq, Repr, Inhabited

/-- The way in which a name is written.  Spaces next to a line end would get lost without quotation
marks; only a block keeps those at the start of a line. -/
def form (name : Text) : Form :=
  let isSpace (c : Char) : Bool := c == ' '
  if needsEscapes name || hasAdjacent isSpace Yaml.isBreak name then .quotationMarks
  else if name.contains '\n' then
    if name.getLast? == some ' ' then .quotationMarks else .block
  else if hasBreak name then
    if hasAdjacent Yaml.isBreak isSpace name then .quotationMarks else .apostrophes
  else if needsQuotes name then .apostrophes
  else .plain

/-- A number in hexadecimal with a fixed number of digits. -/
def paddedHex (width number : Nat) : Text := (Text.hex number).leftpad width '0'

/-- The letter of an escape that has one. -/
def escapeLetter? (n : Nat) : Option Char :=
  [(0x00, '0'), (0x07, 'a'), (0x08, 'b'), (0x09, 't'), (0x0A, 'n'), (0x0B, 'v'), (0x0C, 'f'),
    (0x0D, 'r'), (0x1B, 'e'), (0x22, '"'), (0x5C, '\\'), (0x85, 'N'), (0xA0, '_'), (0x2028, 'L'),
    (0x2029, 'P')].lookup n

/-- A character between quotation marks. -/
def escaped (c : Char) : Text :=
  let n := c.toNat
  if isPrintable c && !Yaml.isBreak c && c != '"' && c != '\\' then [c]
  else
    match escapeLetter? n with
    | some letter => ['\\', letter]
    | none =>
      if n ≤ 0xFF then '\\' :: 'x' :: paddedHex 2 n
      else if n ≤ 0xFFFF then '\\' :: 'u' :: paddedHex 4 n
      else '\\' :: 'U' :: paddedHex 8 n

/-- A text with the start of each line that is not empty moved in, where `atStart` tells whether it
begins at the start of a line. -/
def indented (atStart : Bool) : Text → Text
  | [] => []
  | c :: rest =>
    if Yaml.isBreak c then c :: indented true rest
    else if atStart then "    ".toList ++ c :: indented false rest
    else c :: indented false rest

/-- The hint at the indentation of a block, which its first line does not show if it is empty or
starts with a space. -/
def indentHint (text : Text) : Text :=
  if text.head?.any fun c => c == ' ' || Yaml.isBreak c then ['2'] else []

/-- The hint at the line ends after a block, of which there is one without any hint. -/
def endHint (text : Text) : Text :=
  match text.reverse with
  | [] => ['-']
  | last :: before =>
    if !Yaml.isBreak last then ['-'] else if before.head?.all Yaml.isBreak then ['+'] else []

/-- A text as a block, up to the end of its last line. -/
def block (text : Text) : Text :=
  '|' :: indentHint text ++ endHint text ++ '\n' :: indented true text ++
    (if endsWithBreak text then [] else ['\n'])

/-- A text between apostrophes, which are doubled within it. -/
def betweenApostrophes (text : Text) : Text :=
  indented false
    ('\'' :: (text.flatMap fun c => if c == '\'' then ['\'', '\''] else [c]) ++ ['\''])

/-- A text between quotation marks. -/
def betweenQuotationMarks (text : Text) : Text := '"' :: text.flatMap escaped ++ ['"']

/-- A name as a key. -/
def key (name : Text) : Text :=
  match form name with
  | .plain => name
  | .apostrophes => betweenApostrophes name
  | .quotationMarks => betweenQuotationMarks name
  | .block => block name

/-! ## Documents -/

/-- The most bytes of a name that can stand on one line with its value. -/
def maxSimpleKey : Nat := 128

/-- Whether a name can stand on one line with its value. -/
def isSimpleKey (name : Text) : Bool :=
  !hasBreak name && (Utf8.encode name).length ≤ maxSimpleKey

/-- The lines of one symbol. -/
def entryText (entry : Text × UInt32) : Text :=
  let name := entry.1
  let value := Text.decimal entry.2.toNat ++ ['\n']
  if isSimpleKey name then "  ".toList ++ key name ++ ": ".toList ++ value
  else
    "  ? ".toList ++ key name ++ (if form name == .block then [] else ['\n']) ++ "  : ".toList ++
      value

/-- The lines of one kind of symbols under its title. -/
def sectionText (title : Text) (entries : List (Text × UInt32)) : Text :=
  if entries.isEmpty then title ++ ": \x7b\x7d\n".toList
  else title ++ ":\n".toList ++ entries.flatMap entryText

/-- A symbol map as a document. -/
def text (map : SymbolMap) : Text :=
  sectionText "labels".toList map.labels ++ sectionText "constants".toList map.constants

/-- The symbols of a program as a document. -/
def render (symbols : Symbols) : Text := (ofSymbols symbols).text

end TwoPass.SymbolMap
