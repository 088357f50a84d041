import TwoPass.Proofs.ConstantValues

/-!
# The spellings of a bit instruction

A special mnemonic takes an address, a mask and sometimes a branch target.  They can be separate
tokens, or joined by `,#` into fewer of them, and a mask that is a token of its own may carry a
number sign.  The encoder looks at all of them only after the tokens have been taken apart.

* `specialParts_joined`: operands that are joined come apart as if they had been separate.
* `encodeSpecial_sign`: a number sign in front of the mask is not part of it.

The first holds for any operands.  The second is about the second operand, so the address must not
come apart itself.
-/

namespace TwoPass

namespace Text

variable {first second : Char}

/-- Texts that are joined by a pair come apart there, and wherever each of them does. -/
theorem splitOnPair_intercalate (hpair : first ≠ second) {texts : List Text} (hsome : texts ≠ []) :
    splitOnPair first second ([first, second].intercalate texts) =
      texts.flatMap (splitOnPair first second) := by
  induction texts with
  | nil => exact absurd rfl hsome
  | cons text rest ih =>
      cases rest with
      | nil => simp [List.intercalate_singleton]
      | cons next rest =>
          rw [List.intercalate_cons_cons, List.append_assoc, List.flatMap_cons,
            ← ih (List.cons_ne_nil next rest)]
          exact splitOnPair_append hpair text _

end Text

namespace Instruction

variable {table : Table} {symbols : Symbols} {mnemonic : Text} {special : Special}
  {address mask : Text} {tokens others : List Text}

/-! ## Operands that are joined -/

/-- Operands that are joined into one token come apart as if they were tokens of their own. -/
theorem specialParts_joined {operands : List Text} (hsome : operands ≠ []) (rest : List Text) :
    specialParts (",#".toList.intercalate operands :: rest) = specialParts (operands ++ rest) := by
  have hjoined : Text.splitOnPair ',' '#' (",#".toList.intercalate operands) =
      specialParts operands := Text.splitOnPair_intercalate (by decide) hsome
  calc specialParts (",#".toList.intercalate operands :: rest)
      = Text.splitOnPair ',' '#' (",#".toList.intercalate operands) ++ specialParts rest := rfl
    _ = specialParts operands ++ specialParts rest := by rw [hjoined]
    _ = specialParts (operands ++ rest) := List.flatMap_append.symm

/-- A special mnemonic sees the operands, not the tokens. -/
theorem encode_congr_specialParts (hspecial : table.lookup mnemonic = some (.special special))
    (hparts : specialParts tokens = specialParts others) :
    encode table symbols mnemonic tokens = encode table symbols mnemonic others := by
  simp only [encode, hspecial, encodeSpecial, hparts]

/-! ## Masks with a number sign -/

theorem encodeParts_sign (hsign : mask.head? ≠ some '#') (targets : List Text) :
    encodeParts symbols special address ('#' :: mask) targets =
      encodeParts symbols special address mask targets := by
  have hplain : Text.dropFirst '#' mask = mask := by
    cases mask with
    | nil => rfl
    | cons c rest =>
        have hother : c ≠ '#' := by simpa using hsign
        simp [Text.dropFirst, hother]
  have hmarked : Text.dropFirst '#' ('#' :: mask) = mask := by simp [Text.dropFirst]
  simp only [encodeParts, hplain, hmarked]

/-- If the address is one operand and the mask another, a number sign in front of the mask does not
matter, whatever follows. -/
theorem encodeSpecial_sign (haddress : ¬[',', '#'] <:+: address) (hmask : ¬[',', '#'] <:+: mask)
    (hsign : mask.head? ≠ some '#') (rest : List Text) :
    encodeSpecial symbols special (address :: ('#' :: mask) :: rest) =
      encodeSpecial symbols special (address :: mask :: rest) := by
  have hmarked : ¬[',', '#'] <:+: '#' :: mask := by
    rw [List.infix_cons_iff]
    rintro (hstart | hinside)
    · simp [List.cons_prefix_cons] at hstart
    · exact hmask hinside
  have hparts : ∀ second : Text, ¬[',', '#'] <:+: second →
      specialParts (address :: second :: rest) = address :: second :: specialParts rest := by
    intro second hsecond
    simp [specialParts, Text.splitOnPair_of_not_infix haddress,
      Text.splitOnPair_of_not_infix hsecond]
  simp only [encodeSpecial, hparts _ hmarked, hparts _ hmask, List.length_cons,
    encodeParts_sign hsign]

/-- The spellings of a bit instruction.  An address and a mask can be joined by `,#`, they can be
two tokens, and the mask can have a number sign then: the result is the same for all of them, be it
an instruction or a fault, whatever tokens follow.  A branch target can be joined to the mask in the
same way. -/
theorem encode_spellings (symbols : Symbols)
    (hspecial : table.lookup mnemonic = some (.special special))
    (haddress : ¬",#".toList <:+: address) (hmask : ¬",#".toList <:+: mask)
    (hsign : mask.head? ≠ some '#') :
    (∀ rest,
      encode table symbols mnemonic ((address ++ ",#".toList ++ mask) :: rest) =
        encode table symbols mnemonic (address :: mask :: rest) ∧
      encode table symbols mnemonic (address :: ('#' :: mask) :: rest) =
        encode table symbols mnemonic (address :: mask :: rest)) ∧
    ∀ target,
      encode table symbols mnemonic
          [address ++ ",#".toList ++ mask ++ ",#".toList ++ target] =
        encode table symbols mnemonic [address, mask, target] := by
  refine ⟨fun rest => ⟨?_, ?_⟩, fun target => ?_⟩
  · have hjoined := specialParts_joined (List.cons_ne_nil address [mask]) rest
    rw [List.intercalate_cons_cons, List.intercalate_singleton] at hjoined
    exact encode_congr_specialParts hspecial hjoined
  · simp only [encode, hspecial]
    exact encodeSpecial_sign haddress hmask hsign rest
  · have hjoined := specialParts_joined (List.cons_ne_nil address [mask, target]) []
    rw [List.intercalate_cons_cons, List.intercalate_cons_cons, List.intercalate_singleton,
      ← List.append_assoc, ← List.append_assoc] at hjoined
    exact encode_congr_specialParts hspecial hjoined

/-- A table with a branch on bits that is indexed. -/
def bitTable : Table where
  special := [("brset".toList, ⟨3, [(.indexedX, .paged 0x18 0x1E)]⟩)]

/-- The address ends in a comma and a letter, and the mask looks like an index register. -/
theorem encode_spellings_indexed :
    ∃ instruction, encode bitTable {} "BRSET".toList
        ["$10,X".toList, "'Y".toList, "LOOP".toList] = .ok instruction ∧
      encode bitTable {} "BRSET".toList ["$10,X,#'Y".toList, "LOOP".toList] = .ok instruction ∧
      encode bitTable {} "BRSET".toList ["$10,X".toList, "#'Y".toList, "LOOP".toList] =
        .ok instruction ∧
      encode bitTable {} "BRSET".toList ["$10,X,#'Y,#LOOP".toList] = .ok instruction := by
  have hspecial : bitTable.lookup "BRSET".toList =
      some (.special ⟨3, [(.indexedX, .paged 0x18 0x1E)]⟩) := by decide +kernel
  have hencode : encode bitTable {} "BRSET".toList
      ["$10,X".toList, "'Y".toList, "LOOP".toList] = .ok ⟨.indexedX, .paged 0x18 0x1E,
        [.value 0x10, .value 0x59, .label "LOOP".toList], 5⟩ := by decide +kernel
  have haddress : ¬",#".toList <:+: "$10,X".toList := by decide
  have hmask : ¬",#".toList <:+: "'Y".toList := by decide
  obtain ⟨htwo, hthree⟩ := encode_spellings {} hspecial haddress hmask (by decide)
  obtain ⟨hjoined, hmarked⟩ := htwo ["LOOP".toList]
  exact ⟨_, hencode, hjoined.trans hencode, hmarked.trans hencode,
    (hthree "LOOP".toList).trans hencode⟩

end Instruction

end TwoPass
