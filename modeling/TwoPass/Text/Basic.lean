/-!
# Text

Source lines, tokens, names and output rows are sequences of characters.  Everything that reads or
writes text in this library works on such a sequence, so that what it does can be proved by
induction over the characters.

Letter case only ever matters for the English alphabet: `fold` is the one notion of "same word"
that mnemonics, directives and file extensions share.
-/

namespace TwoPass

/-- A sequence of characters. -/
abbrev Text := List Char

namespace Text

/-- Capital English letters become small ones; every other character stays. -/
def fold (text : Text) : Text := text.map Char.toLower

/-- Two words that differ in the case of English letters at most. -/
def sameWord (a b : Text) : Bool := fold a == fold b

/-- The pieces of a text between the occurrences of `first` directly followed by `second`. -/
def splitOnPair (first second : Char) : Text → List Text
  | [] => [[]]
  | [c] => [[c]]
  | c :: d :: rest =>
    if c == first && d == second then [] :: splitOnPair first second rest
    else (splitOnPair first second (d :: rest)).modifyHead (c :: ·)

/-- The text without its first character if that is `c`, and the whole text otherwise. -/
def dropFirst (c : Char) : Text → Text
  | [] => []
  | d :: rest => if d == c then rest else d :: rest

/-- The text without its last character if that is `c`, and the whole text otherwise. -/
def dropLast (c : Char) (text : Text) : Text :=
  if text.getLast? == some c then List.dropLast text else text

/-- The texts in order, each closed by a line feed. -/
def unlines (rows : List Text) : Text := rows.flatMap (· ++ ['\n'])

end Text

end TwoPass
