import TwoPass.Text.Numeral

/-!
# Styles

Setting off text on a terminal by control sequences around it.
-/

namespace TwoPass

/-- The ways in which a terminal can set off a stretch of text. -/
inductive Style where
  | red
  | green
  | yellow
  | blue
  | magenta
  | bold
  | dim
  | underlined
  deriving DecidableEq, Repr, Inhabited

namespace Style

/-- The control sequence with the given number. -/
def control (number : Nat) : Text :=
  Char.ofNat 0x1B :: '[' :: Text.decimal number ++ ['m']

/-- The number that turns a style on. -/
def onCode : Style → Nat
  | red => 31
  | green => 32
  | yellow => 33
  | blue => 34
  | magenta => 35
  | bold => 1
  | dim => 2
  | underlined => 4

/-- The number that turns a style off. -/
def offCode : Style → Nat
  | bold => 22
  | dim => 22
  | underlined => 24
  | _ => 39

/-- A text in a style. -/
def paint (style : Style) (text : Text) : Text :=
  control style.onCode ++ text ++ control style.offCode

/-- A text in bold red.  Both styles end after it, in the order in which they began. -/
def alarm (text : Text) : Text :=
  control red.onCode ++ control bold.onCode ++ text ++ control red.offCode ++ control bold.offCode

/-- The text without control sequences, where `inside` tells whether it starts within one. -/
def stripFrom (inside : Bool) : Text → Text
  | [] => []
  | c :: rest =>
    if inside then stripFrom (c != 'm') rest
    else if c.toNat == 0x1B then stripFrom true rest
    else c :: stripFrom false rest

/-- The text as it is seen on a terminal, without its styles. -/
def strip (text : Text) : Text := stripFrom false text

end Style

end TwoPass
