import TwoPass.Text.Basic

/-!
# Blanks and words

A blank is a character with the Unicode property White_Space.  Words are the maximal stretches
without one.
-/

namespace TwoPass.Text

/-- The code points with the property White_Space, as closed ranges in ascending order. -/
def blankRanges : List (Nat × Nat) :=
  [(0x09, 0x0D), (0x20, 0x20), (0x85, 0x85), (0xA0, 0xA0), (0x1680, 0x1680), (0x2000, 0x200A),
    (0x2028, 0x2029), (0x202F, 0x202F), (0x205F, 0x205F), (0x3000, 0x3000)]

/-- Whether a character is white space. -/
def isBlank (c : Char) : Bool :=
  blankRanges.any fun range => range.1 ≤ c.toNat && c.toNat ≤ range.2

/-- The text without the blanks at its start. -/
def trimStart (text : Text) : Text := text.dropWhile isBlank

/-- The text without the blanks at its end. -/
def trimEnd (text : Text) : Text := (text.reverse.dropWhile isBlank).reverse

/-- The text without the blanks at both ends. -/
def trim (text : Text) : Text := trimEnd (trimStart text)

/-- The words of a text in order; none of them is empty. -/
def words (text : Text) : List Text := (text.splitOnP isBlank).filter (!·.isEmpty)

/-- Whether the text starts with a blank. -/
def startsBlank (text : Text) : Bool := text.head?.any isBlank

end TwoPass.Text
