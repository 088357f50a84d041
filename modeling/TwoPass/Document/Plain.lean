import TwoPass.Text.Numeral

/-!
# Plain scalars of YAML

A scalar that stands without quotes is read by its form: as nothing, as a truth value, as an integer
or as a decimal fraction.  Everything else is text.
-/

namespace TwoPass.Plain

/-! ## Nothing and truth values -/

/-- The spellings of nothing. -/
def isNull (text : Text) : Bool :=
  ["null".toList, "Null".toList, "NULL".toList, "~".toList].contains text

/-- The spellings of the truth values. -/
def truth? (text : Text) : Option Bool :=
  if ["true".toList, "True".toList, "TRUE".toList].contains text then some true
  else if ["false".toList, "False".toList, "FALSE".toList].contains text then some false
  else none

/-! ## Integers -/

/-- Takes one sign off the front of a text. -/
def dropSign : Text → Text
  | '+' :: rest => rest
  | '-' :: rest => rest
  | text => text

/-- Digits that start with a redundant zero are no number. -/
def hasRedundantZero (text : Text) : Bool :=
  match dropSign text with
  | '0' :: c :: rest => (c :: rest).all fun d => '0' ≤ d && d ≤ '9'
  | _ => false

/-- The number of an unsigned numeral in decimal or, behind a mark, in another radix. -/
def magnitude? : Text → Option Nat
  | '0' :: 'x' :: digits => Text.numeral? 16 digits
  | '0' :: 'o' :: digits => Text.numeral? 8 digits
  | '0' :: 'b' :: digits => Text.numeral? 2 digits
  | digits => Text.numeral? 10 digits

/-- The natural number below `bound` that a scalar spells, with or without a plus sign. -/
def natural? (bound : Nat) (text : Text) : Option Nat :=
  if hasRedundantZero text then none
  else (magnitude? (Text.dropFirst '+' text)).filter (· < bound)

/-- Whether a scalar spells an integer of 128 bits: a natural number or one with a minus sign. -/
def isInteger (text : Text) : Bool :=
  match text with
  | '-' :: rest =>
    !hasRedundantZero text && ((magnitude? rest).filter (· ≤ Nat.pow 2 127)).isSome
  | _ => (natural? (Nat.pow 2 128) text).isSome

/-! ## Fractions -/

/-- A decimal fraction: the number `digits` scaled by a power of ten. -/
structure Fraction where
  digits : Text
  exponent : Int
  deriving DecidableEq, Repr

/-- Reads the exponent of a fraction, which may be missing. -/
def exponent? : Text → Option Int
  | [] => some 0
  | c :: rest =>
    if c == 'e' || c == 'E' then
      (Text.numeral? 10 (dropSign rest)).map fun n =>
        if rest.head? == some '-' then - (n : Int) else n
    else none

/-- The fraction that an unsigned text spells: digits, of which some may stand after a point, and an
exponent. -/
def fraction? (text : Text) : Option Fraction :=
  let isDigit (c : Char) : Bool := '0' ≤ c && c ≤ '9'
  let (whole, afterWhole) := text.span isDigit
  let (part, afterPart) :=
    match afterWhole with
    | '.' :: rest => rest.span isDigit
    | _ => ([], afterWhole)
  if whole.isEmpty && part.isEmpty then none
  else
    (exponent? afterPart).map fun exponent => ⟨whole ++ part, exponent - part.length⟩

/-- The least number that is too large for a binary fraction of 64 bits: half a unit above the
largest one. -/
def fractionLimit : Nat := Nat.pow 2 1024 - Nat.pow 2 970

/-- Whether a fraction is below the limit.  Its order of magnitude decides, except near it. -/
def Fraction.isFinite (fraction : Fraction) : Bool :=
  let digits := fraction.digits.dropWhile (· == '0')
  let number := (Text.numeral? 10 digits).getD 0
  let order := (digits.length : Int) + fraction.exponent
  if digits.isEmpty || order < 1 then true
  else if 310 < order then false
  else
    match fraction.exponent with
    | .ofNat exponent => number * Nat.pow 10 exponent < fractionLimit
    | .negSucc exponent => number < fractionLimit * Nat.pow 10 (exponent + 1)

/-- The spellings of the values that are no finite number. -/
def isInfiniteOrNone (text : Text) : Bool :=
  let infinities := [".inf".toList, ".Inf".toList, ".INF".toList]
  infinities.contains (dropSign text) ||
    [".nan".toList, ".NaN".toList, ".NAN".toList].contains text

/-- Whether a scalar spells a fraction. -/
def isFraction (text : Text) : Bool :=
  isInfiniteOrNone text || ((fraction? (dropSign text)).filter Fraction.isFinite).isSome

/-- Whether a scalar is read as something else than text. -/
def isReserved (text : Text) : Bool :=
  text.isEmpty || isNull text || (truth? text).isSome || isInteger text ||
    hasRedundantZero text || isFraction text

end TwoPass.Plain
