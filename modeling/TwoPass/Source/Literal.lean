import TwoPass.Source.Fault
import TwoPass.Text.Blank

/-!
# Numeric literals

A dollar sign introduces hexadecimal digits, a percent sign binary digits and an apostrophe a
single ASCII character that stands for its code; anything else is decimal.  A literal denotes a
word of 32 bits.  Blanks around it do not count, signs are not part of it.
-/

namespace TwoPass.Literal

/-- A natural number as a word, if it fits one. -/
def word? (n : Nat) : Option UInt32 := if n < UInt32.size then some n.toUInt32 else none

/-- The code of a text that consists of one ASCII character. -/
def character? : Text → Option UInt32
  | [c] => if c.toNat < 128 then some c.toNat.toUInt32 else none
  | _ => none

/-- The word that a token denotes, if it is a literal. -/
def value? (token : Text) : Option UInt32 :=
  match Text.trim token with
  | '$' :: digits => (Text.numeral? 16 digits).bind word?
  | '%' :: digits => (Text.numeral? 2 digits).bind word?
  | '\'' :: rest => character? rest
  | digits => (Text.numeral? 10 digits).bind word?

/-- The word that a token denotes; a token that is no literal is a fault. -/
def parse (token : Text) : Except Fault UInt32 := (value? token).elim (.error .badLiteral) .ok

end TwoPass.Literal
