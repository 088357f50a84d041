import TwoPass.Proofs.Names

/-!
# The mode of an instruction and its operands

The encoder takes the first reading of a mnemonic and its tokens that applies, and which readings
apply depends on the modes that the table happens to have.  `Matches` collects what can be relied on
nevertheless: the opcode belongs to the mode, labels stand where the second pass knows what to make
of them, values fit the bytes that are left for them, and direct mode is preferred to extended mode
wherever it will do.

Every part is read off the cases of `Encoded`; that no case is missing is `encode_cases`.
-/

namespace TwoPass

variable {table : Table} {symbols : Symbols} {mnemonic : Text} {entry : Entry}
  {tokens : List Text} {instruction : Instruction}

/-- The opcodes of a mnemonic, of either kind. -/
def Entry.modes : Entry → Modes
  | .standard modes => modes
  | .special found => found.modes

namespace Instruction

/-- The number of bytes for each operand: several take one byte each, a single one takes what the
opcode leaves. -/
def slotWidth (instruction : Instruction) : Nat :=
  if 1 < instruction.operands.length then 1 else instruction.size - instruction.opcode.size

/-- Agreement of an instruction with the entry of its mnemonic. -/
structure Matches (entry : Entry) (mnemonic : Text) (tokens : List Text)
    (instruction : Instruction) : Prop where
  /-- The opcode is the one that the table has for the mode. -/
  opcode : entry.modes.opcode? instruction.mode = some instruction.opcode
  /-- A label is the last operand, so there is one at most. -/
  label_last : ∀ (i : Nat) (name : Text), instruction.operands[i]? = some (.label name) →
    i + 1 = instruction.operands.length
  /-- A label is the target of a branch, of a jump, or of a branch on bits. -/
  label_mode : ∀ (i : Nat) (name : Text), instruction.operands[i]? = some (.label name) →
    instruction.mode = .relative ∨
    (instruction.mode = .extended ∧ (Text.sameWord mnemonic "jmp".toList = true ∨
      Text.sameWord mnemonic "jsr".toList = true)) ∨
    ∃ special, entry = .special special ∧ special.operands = 3 ∧ i = 2
  special_mode : ∀ special, entry = .special special →
    instruction.mode = .direct ∨ instruction.mode = .indexedX ∨ instruction.mode = .indexedY
  /-- A mnemonic that can branch does so whenever it has an operand. -/
  branch_mode : ∀ modes, entry = .standard modes → (modes.opcode? .relative).isSome = true →
    instruction.mode = .relative ∨
    (instruction.mode = .inherent ∧ tokens = [] ∧ instruction.operands = [])
  value_lt : ∀ word, .value word ∈ instruction.operands →
    word.toNat < 256 ^ instruction.slotWidth
  /-- Direct mode addresses the first 256 bytes of memory. -/
  direct_value : instruction.mode = .direct →
    ∃ word rest, instruction.operands = .value word :: rest ∧ word.toNat ≤ 0xFF
  /-- Extended mode is left for what direct mode cannot do.  A plain jump does not try. -/
  extended_value : (entry.modes.opcode? .direct).isSome = true →
    ¬Text.sameWord mnemonic "jmp".toList = true → instruction.mode = .extended →
    (∃ name, instruction.operands = [.label name]) ∨
    ∃ word, instruction.operands = [.value word] ∧ 0xFF < word.toNat

/-! ## Modes and opcodes -/

theorem Placed.opcode? {modes : Modes} {operand : Operand}
    (hplaced : Placed modes operand instruction) :
    modes.opcode? instruction.mode = some instruction.opcode := by
  cases hplaced with
  | direct _ hopcode => exact hopcode
  | extended _ hopcode => exact hopcode

theorem Encoded.opcode? (hencoded : Encoded symbols mnemonic entry tokens instruction) :
    entry.modes.opcode? instruction.mode = some instruction.opcode := by
  cases hencoded with
  | inherent hopcode | branch hopcode => exact hopcode
  | immediate _ hopcode => exact hopcode
  | indexed _ _ _ hopcode => exact hopcode
  | jump _ _ _ _ hopcode => exact hopcode
  | call _ _ _ _ _ hplaced | address _ _ _ _ _ _ hplaced => exact hplaced.opcode?
  | special _ _ _ hopcode => exact hopcode

theorem Encoded.special_mode {special : Special}
    (hencoded : Encoded symbols mnemonic (.special special) tokens instruction) :
    instruction.mode = .direct ∨ instruction.mode = .indexedX ∨ instruction.mode = .indexedY := by
  cases hencoded with
  | special _ _ hbase => exact specialBase_cases hbase

theorem Encoded.branch_mode {modes : Modes}
    (hencoded : Encoded symbols mnemonic (.standard modes) tokens instruction)
    (hbranches : (modes.opcode? .relative).isSome = true) :
    instruction.mode = .relative ∨
      (instruction.mode = .inherent ∧ tokens = [] ∧ instruction.operands = []) := by
  cases hencoded with
  | inherent => exact .inr ⟨rfl, rfl, rfl⟩
  | branch => exact .inl rfl
  | immediate hbranch | indexed hbranch | jump hbranch | call hbranch | address hbranch =>
      -- These readings are for mnemonics without a relative mode.
      rw [hbranch] at hbranches
      cases hbranches

/-! ## Labels -/

/-- A label at a place is the only operand of its instruction, or the third of three. -/
theorem Encoded.label_mode (hencoded : Encoded symbols mnemonic entry tokens instruction)
    (hentry : ∀ special, entry = .special special → 2 ≤ special.operands ∧ special.operands ≤ 3)
    (hlookup : table.lookup mnemonic = some entry) {i : Nat} {name : Text}
    (hget : instruction.operands[i]? = some (.label name)) :
    instruction.mode = .relative ∨
    (instruction.mode = .extended ∧ (Text.sameWord mnemonic "jmp".toList = true ∨
      Text.sameWord mnemonic "jsr".toList = true)) ∨
    ∃ special, entry = .special special ∧ special.operands = 3 ∧ i = 2 := by
  obtain ⟨hdeferrable, -⟩ := hencoded.deferrable_of_label hlookup hentry hget
  cases hdeferrable with
  | bits hspecial hthree =>
      exact .inr (.inr ⟨_, Option.some.inj (hlookup.symm.trans hspecial), hthree, rfl⟩)
  | branch hstandard hopcode =>
      obtain rfl := Option.some.inj (hlookup.symm.trans hstandard)
      rcases hencoded.branch_mode (by rw [hopcode]; rfl) with hmode | ⟨-, htokens, -⟩
      · exact .inl hmode
      · cases htokens
  | jump hstandard hjump hplain hindex =>
      obtain rfl := Option.some.inj (hlookup.symm.trans hstandard)
      cases hencoded with
      | branch => exact .inl rfl
      | jump => exact .inr (.inl ⟨rfl, hjump⟩)
      | call _ _ _ _ _ hplaced =>
          cases hplaced with
          | direct => cases hget
          | extended => exact .inr (.inl ⟨rfl, hjump⟩)
      | immediate | indexed => cases hget
      | address _ _ _ _ _ _ hplaced =>
          rw [hplaced.operands_eq] at hget
          cases hget

/-! ## Values -/

/-- The width that the size was computed with is the width of the slots. -/
theorem Fits.slotWidth {width : Nat} (hfits : instruction.Fits width)
    (hsome : instruction.operands ≠ []) : instruction.slotWidth = width := by
  have hlength : 0 < instruction.operands.length := List.length_pos_iff.mpr hsome
  unfold Instruction.slotWidth
  by_cases hseveral : 1 < instruction.operands.length
  · rw [if_pos hseveral, hfits.several hseveral]
  · have hone : instruction.operands.length = 1 := by omega
    rw [if_neg hseveral, hfits.size_eq, hone]
    omega

theorem Fits.value_lt {width : Nat} (hfits : instruction.Fits width) {word : UInt32}
    (hmem : .value word ∈ instruction.operands) : word.toNat < 256 ^ instruction.slotWidth := by
  rw [hfits.slotWidth (List.ne_nil_of_mem hmem)]
  exact hfits.range _ hmem

theorem toNat_le_of_resolve {missing : Fault} {token : Text} {word : UInt32}
    (hword : symbols.resolve byteMax missing token = .ok word) : word.toNat ≤ 0xFF :=
  UInt32.le_iff_toNat_le.mp (Symbols.resolve_eq_ok.mp hword).2

theorem Encoded.direct_value (hencoded : Encoded symbols mnemonic entry tokens instruction)
    (hdirect : instruction.mode = .direct) :
    ∃ word rest, instruction.operands = .value word :: rest ∧ word.toNat ≤ 0xFF := by
  cases hencoded with
  | inherent | branch | immediate | jump => cases hdirect
  | indexed _ _ _ _ hoffset => exact ⟨_, [], rfl, toNat_le_of_resolve hoffset⟩
  | call _ _ _ _ _ hplaced | address _ _ _ _ _ _ hplaced =>
      cases hplaced with
      | direct hbyte => exact ⟨_, [], rfl, UInt32.le_iff_toNat_le.mp hbyte⟩
      | extended => cases hdirect
  | special _ _ _ _ haddress => exact ⟨_, _, rfl, toNat_le_of_resolve haddress⟩

/-- An address operand that has not been placed in direct mode does not fit it, if there is one. -/
theorem Placed.extended_value {modes : Modes} {operand : Operand}
    (hplaced : Placed modes operand instruction) (hshort : (modes.opcode? .direct).isSome = true)
    (hextended : instruction.mode = .extended) :
    (∃ name, instruction.operands = [.label name]) ∨
      ∃ word, instruction.operands = [.value word] ∧ 0xFF < word.toNat := by
  cases hplaced with
  | direct => cases hextended
  | @extended operand opcode hlong _ =>
      cases operand with
      | label name => exact .inl ⟨name, rfl⟩
      | value word =>
          refine .inr ⟨word, rfl, ?_⟩
          by_contra hbyte
          have hle : word ≤ byteMax := UInt32.le_iff_toNat_le.mpr (Nat.not_lt.mp hbyte)
          rw [hlong word hle rfl] at hshort
          cases hshort

theorem Encoded.extended_value (hencoded : Encoded symbols mnemonic entry tokens instruction)
    (hshort : (entry.modes.opcode? .direct).isSome = true)
    (hjump : ¬Text.sameWord mnemonic "jmp".toList = true)
    (hextended : instruction.mode = .extended) :
    (∃ name, instruction.operands = [.label name]) ∨
      ∃ word, instruction.operands = [.value word] ∧ 0xFF < word.toNat := by
  cases hencoded with
  | inherent | branch | immediate => cases hextended
  | indexed _ _ hindex =>
      obtain ⟨register, -, hregister⟩ := indexSuffix_eq_some hindex
      rcases Mode.ofRegister?_cases hregister with rfl | rfl <;> cases hextended
  | jump _ _ _ hjump' => exact absurd hjump' hjump
  | call _ _ _ _ _ hplaced | address _ _ _ _ _ _ hplaced =>
      exact hplaced.extended_value hshort hextended
  | special _ _ hbase =>
      rcases specialBase_cases hbase with rfl | rfl | rfl <;> cases hextended

/-! ## All instructions -/

/-- Whatever the encoder makes of a mnemonic and its tokens agrees with the entry of the mnemonic,
whatever constants it is told and whatever modes an insertion has given the mnemonic. -/
theorem matches_of_encode (hbuilt : table.Built)
    (hencode : encode table symbols mnemonic tokens = .ok instruction) :
    ∃ entry, table.lookup mnemonic = some entry ∧ Matches entry mnemonic tokens instruction := by
  obtain ⟨entry, hlookup, hencoded⟩ := encode_cases hencode
  have hentry : ∀ special, entry = .special special →
      2 ≤ special.operands ∧ special.operands ≤ 3 := by
    intro special hspecial
    exact hbuilt.lookup_special (hspecial ▸ hlookup)
  obtain ⟨width, hfits⟩ := hencoded.fits hentry
  refine ⟨entry, hlookup, hencoded.opcode?, ?_, fun i name => hencoded.label_mode hentry hlookup,
    ?_, ?_, fun word => hfits.value_lt, hencoded.direct_value, hencoded.extended_value⟩
  · intro i name hget
    obtain ⟨hi, -⟩ := List.getElem?_eq_some_iff.mp hget
    by_contra hlast
    -- Everything before the last operand is a value.
    obtain ⟨word, hvalue⟩ := hencoded.value_of_lt (Nat.lt_succ_self i) (by omega)
    rw [hget] at hvalue
    cases hvalue
  · rintro special rfl
    exact hencoded.special_mode
  · rintro modes rfl hbranches
    exact hencoded.branch_mode hbranches

/-- A branch on bits in direct mode, whose target is not known yet. -/
theorem matches_of_encode_brset :
    sampleSetting.table.Built ∧
      ∃ instruction, encode sampleSetting.table {} "BrSet".toList
          ["$20,#$0F".toList, "DONE".toList] = .ok instruction ∧
        ∃ entry, sampleSetting.table.lookup "BrSet".toList = some entry ∧
          Matches entry "BrSet".toList ["$20,#$0F".toList, "DONE".toList] instruction := by
  have hencode : encode sampleSetting.table {} "BrSet".toList
      ["$20,#$0F".toList, "DONE".toList] =
        .ok ⟨.direct, .short 0x12, [.value 0x20, .value 0x0F, .label "DONE".toList], 4⟩ := by
    decide +kernel
  exact ⟨built_sampleSetting, _, hencode, matches_of_encode built_sampleSetting hencode⟩

end Instruction

end TwoPass
