import TwoPass.Text.Basic

/-!
# UTF-8

Reading bytes as text.  Bytes that encode no character are either refused or replaced: every longest
stretch that could still have begun a character gives one replacement character.
-/

namespace TwoPass.Utf8

/-- What the first byte of a longer character says: how many bytes follow, the range of the first of
them, and the bits of the character so far. -/
structure Lead where
  tails : Nat
  low : UInt8
  high : UInt8
  bits : Nat
  deriving DecidableEq, Repr

/-- The first bytes of the characters that take two to four bytes.  The ranges leave out forms that
are longer than necessary, surrogates and numbers past the last code point. -/
def lead? (byte : UInt8) : Option Lead :=
  if byte < 0xC2 then none
  else if byte ≤ 0xDF then some ⟨1, 0x80, 0xBF, byte.toNat - 0xC0⟩
  else if byte == 0xE0 then some ⟨2, 0xA0, 0xBF, 0⟩
  else if byte == 0xED then some ⟨2, 0x80, 0x9F, 0xD⟩
  else if byte ≤ 0xEF then some ⟨2, 0x80, 0xBF, byte.toNat - 0xE0⟩
  else if byte == 0xF0 then some ⟨3, 0x90, 0xBF, 0⟩
  else if byte ≤ 0xF3 then some ⟨3, 0x80, 0xBF, byte.toNat - 0xF0⟩
  else if byte == 0xF4 then some ⟨3, 0x80, 0x8F, 4⟩
  else none

/-- Reads the bytes that follow a first byte: the character, if they complete one, and the bytes
that are left. -/
def readTails : Nat → UInt8 → UInt8 → Nat → List UInt8 → Option Char × List UInt8
  | 0, _, _, bits, bytes => (some (Char.ofNat bits), bytes)
  | _ + 1, _, _, _, [] => (none, [])
  | tails + 1, low, high, bits, byte :: bytes =>
    if low ≤ byte && byte ≤ high then
      readTails tails 0x80 0xBF (bits * 64 + (byte.toNat - 0x80)) bytes
    else (none, byte :: bytes)

/-- Reads one character, or skips one stretch that encodes none. -/
def readFirst (byte : UInt8) (bytes : List UInt8) : Option Char × List UInt8 :=
  if byte < 0x80 then (some (Char.ofNat byte.toNat), bytes)
  else
    match lead? byte with
    | some lead => readTails lead.tails lead.low lead.high lead.bits bytes
    | none => (none, bytes)

theorem length_readTails_le (tails : Nat) (low high : UInt8) (bits : Nat) (bytes : List UInt8) :
    (readTails tails low high bits bytes).2.length ≤ bytes.length := by
  induction bytes generalizing tails low high bits with
  | nil => cases tails <;> simp [readTails]
  | cons byte bytes ih =>
    cases tails with
    | zero => simp [readTails]
    | succ tails =>
      rw [readTails]
      split
      · exact Nat.le_succ_of_le (ih ..)
      · exact Nat.le_refl _

theorem length_readFirst_le (byte : UInt8) (bytes : List UInt8) :
    (readFirst byte bytes).2.length ≤ bytes.length := by
  rw [readFirst]
  split
  · exact Nat.le_refl _
  · split
    · exact length_readTails_le ..
    · exact Nat.le_refl _

/-- The characters of a sequence of bytes, with `none` for each stretch that encodes none. -/
def pieces : List UInt8 → List (Option Char)
  | [] => []
  | byte :: bytes => (readFirst byte bytes).1 :: pieces (readFirst byte bytes).2
termination_by bytes => bytes.length
decreasing_by exact Nat.lt_succ_of_le (length_readFirst_le ..)

/-- The text that bytes encode, if all of them do. -/
def decode? (bytes : List UInt8) : Option Text := (pieces bytes).mapM id

/-- The text that bytes encode, with a replacement character for each stretch that encodes none. -/
def decodeLossy (bytes : List UInt8) : Text := (pieces bytes).map (·.getD (Char.ofNat 0xFFFD))

/-- The bytes of a text. -/
def encode (text : Text) : List UInt8 := text.flatMap String.utf8EncodeChar

end TwoPass.Utf8
