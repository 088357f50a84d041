import TwoPass.Text.Basic

/-!
# Numerals

Reading a run of digits in some radix, and writing numbers in decimal and in upper-case
hexadecimal.
-/

namespace TwoPass.Text

/-- The value of a digit: decimal digits, then the English letters in either case from ten on. -/
def digitValue (c : Char) : Option Nat :=
  let n := c.toNat
  if 0x30 ≤ n && n ≤ 0x39 then some (n - 0x30)
  else if 0x41 ≤ n && n ≤ 0x5A then some (n - 0x41 + 10)
  else if 0x61 ≤ n && n ≤ 0x7A then some (n - 0x61 + 10)
  else none

/-- The value of a digit of a given radix. -/
def digitOf (radix : Nat) (c : Char) : Option Nat := (digitValue c).filter (· < radix)

/-- The number that a list of digit values denotes, most significant first. -/
def ofDigits (radix : Nat) (digits : List Nat) : Nat :=
  digits.foldl (fun number digit => number * radix + digit) 0

/-- The number that a text denotes: one or more digits of the radix and nothing else. -/
def numeral? (radix : Nat) (text : Text) : Option Nat :=
  if text.isEmpty then none else (text.mapM (digitOf radix)).map (ofDigits radix)

/-- A natural number in decimal. -/
def decimal (n : Nat) : Text := Nat.toDigits 10 n

/-- An integer in decimal, with a sign if it is negative. -/
def signedDecimal : Int → Text
  | .ofNat n => decimal n
  | .negSucc n => '-' :: decimal (n + 1)

/-- A natural number in hexadecimal with capital letters. -/
def hex (n : Nat) : Text := (Nat.toDigits 16 n).map Char.toUpper

/-- A number in hexadecimal with at least four digits, the way addresses are shown. -/
def addressHex (n : Nat) : Text := (hex n).leftpad 4 '0'

/-- The two hexadecimal digits of a byte. -/
def byteHex (byte : UInt8) : Text :=
  [(Nat.digitChar (byte.toNat / 16)).toUpper, (Nat.digitChar (byte.toNat % 16)).toUpper]

/-- Bytes in hexadecimal, separated by single spaces. -/
def spacedHex (bytes : List UInt8) : Text := [' '].intercalate (bytes.map byteHex)

end TwoPass.Text
