import Mathlib.Algebra.Order.Group.Unbundled.Int
import Mathlib.Data.Int.ModEq
import Mathlib.Data.Nat.Digits.Defs
import TwoPass.Code.Line
import TwoPass.Proofs.Outcome

/-!
# Operands in their slots

Each operand of a line is written into a slot of bytes, and the line decides how wide its slots are.
Nothing is assumed about the line here: its size may be any number, so that a slot can have no byte
at all or more bytes than a word.

* `inSlot_iff`, `operandBytes_eq_ok_iff`, `operandBytes_eq_error_iff`: an operand is written if its
  magnitude fits the slot, and the slot has one to four bytes.
* `Shows`: what the bytes in a slot say about the operand.
* `operandWords_eq`: the same bytes come out of words of 64 bits, by shifting, masking and cutting,
  and none of these steps leaves its range.

`slots_of_line` puts this together for all operands of a line.
-/

namespace TwoPass

/-! ## Bytes and the number that they denote -/

/-- The number that bytes denote, the most significant of them first. -/
def ofBigEndian (bytes : List UInt8) : Nat := Nat.ofDigits 256 (bytes.reverse.map UInt8.toNat)

theorem ofBigEndian_concat (bytes : List UInt8) (byte : UInt8) :
    ofBigEndian (bytes ++ [byte]) = byte.toNat + 256 * ofBigEndian bytes := by
  simp [ofBigEndian, Nat.ofDigits_cons]

theorem ofBigEndian_bigEndian (width number : Nat) :
    ofBigEndian (bigEndian width number) = number % 256 ^ width := by
  induction width generalizing number with
  | zero => simp [bigEndian, ofBigEndian, Nat.mod_one]
  | succ width ih =>
      have hbyte : number.toUInt8.toNat = number % 256 := rfl
      rw [bigEndian, ofBigEndian_concat, ih, hbyte, Nat.pow_succ', Nat.mod_mul]

/-- The low bytes of a number are the last of all its bytes. -/
theorem drop_bigEndian (dropped width number : Nat) :
    (bigEndian (dropped + width) number).drop dropped = bigEndian width number := by
  induction width generalizing number with
  | zero => simp [bigEndian]
  | succ width ih =>
      have hlength : dropped ≤ (bigEndian (dropped + width) (number / 256)).length := by simp
      rw [← Nat.add_assoc, bigEndian, List.drop_append_of_le_length hlength, ih, bigEndian]

theorem byteRange_eq (width : Nat) : byteRange width = 256 ^ width := rfl

theorem Opcode.size_le (opcode : Opcode) : opcode.size ≤ 2 := by
  cases opcode <;> simp [Opcode.size]

namespace Line

variable {address : UInt32} {width : Nat} {operand : Int} {group : List UInt8}
  {error : ObjectError}

/-! ## A single operand -/

/-- A slot of one to four bytes can hold an operand if the magnitude is a number of that many
bytes. -/
structure InSlot (width : Nat) (operand : Int) : Prop where
  width_pos : 1 ≤ width
  width_le : width ≤ 4
  magnitude : |operand| ≤ 256 ^ width - 1

theorem magnitude_iff : |operand| ≤ 256 ^ width - 1 ↔ operand.natAbs < byteRange width := by
  have hrange : ((byteRange width : Nat) : Int) = 256 ^ width := by simp [byteRange_eq]
  rw [Int.abs_eq_natAbs, ← hrange]
  omega

theorem inSlot_iff :
    InSlot width operand ↔ (1 ≤ width ∧ width ≤ 4) ∧ operand.natAbs < byteRange width :=
  ⟨fun h => ⟨⟨h.width_pos, h.width_le⟩, magnitude_iff.mp h.magnitude⟩,
    fun h => ⟨h.1.1, h.1.2, magnitude_iff.mpr h.2⟩⟩

theorem operandBytes_of_inSlot (address : UInt32) (hslot : InSlot width operand) :
    operandBytes address width operand =
      .ok (bigEndian width (operand % (byteRange width : Int)).toNat) := by
  obtain ⟨⟨hpos, hle⟩, hrange⟩ := inSlot_iff.mp hslot
  have hwidth : ¬(width == 0 || decide (4 < width)) = true := by simp; omega
  rw [operandBytes, twosComplement, if_neg hwidth, if_neg (Nat.not_le.mpr hrange)]

theorem operandBytes_of_not_inSlot (address : UInt32) (hslot : ¬ InSlot width operand) :
    operandBytes address width operand = .error (.operandOverflow address operand) := by
  have hnone : twosComplement operand width = none := by
    unfold twosComplement
    split
    next => rfl
    next hwidth =>
      simp only [Bool.or_eq_true, beq_iff_eq, decide_eq_true_eq] at hwidth
      refine if_pos (Nat.not_lt.mp fun hrange => hslot (inSlot_iff.mpr ⟨?_, hrange⟩))
      omega
  rw [operandBytes, hnone]

/-- An operand that is written has its low bytes in the slot. -/
theorem operandBytes_eq_ok_iff : operandBytes address width operand = .ok group ↔
    InSlot width operand ∧ group = bigEndian width (operand % (byteRange width : Int)).toNat := by
  by_cases hslot : InSlot width operand
  · simp [operandBytes_of_inSlot address hslot, hslot, eq_comm]
  · simp [operandBytes_of_not_inSlot address hslot, hslot]

theorem operandBytes_eq_error_iff : operandBytes address width operand = .error error ↔
    ¬ InSlot width operand ∧ error = .operandOverflow address operand := by
  by_cases hslot : InSlot width operand
  · simp [operandBytes_of_inSlot address hslot, hslot]
  · simp [operandBytes_of_not_inSlot address hslot, hslot, eq_comm]

theorem exists_operandBytes_iff :
    (∃ group, operandBytes address width operand = .ok group) ↔ InSlot width operand := by
  simp [operandBytes_eq_ok_iff]

/-- The bytes of a slot as a number: the operand itself, or the one that takes its place in this
many bytes. -/
structure Shows (width : Nat) (operand : Int) (group : List UInt8) : Prop where
  length : group.length = width
  congruent : (ofBigEndian group : Int) ≡ operand [ZMOD 256 ^ width]
  eq_of_nonneg : 0 ≤ operand → (ofBigEndian group : Int) = operand

theorem shows_of_operandBytes (hgroup : operandBytes address width operand = .ok group) :
    Shows width operand group := by
  obtain ⟨hslot, rfl⟩ := operandBytes_eq_ok_iff.mp hgroup
  obtain ⟨-, hrange⟩ := inSlot_iff.mp hslot
  have hpos : (0 : Int) < byteRange width := by
    have := Nat.pow_pos (n := width) (show 0 < 256 by decide)
    exact_mod_cast this
  have hlow : 0 ≤ operand % (byteRange width : Int) := Int.emod_nonneg operand (ne_of_gt hpos)
  have hhigh : operand % (byteRange width : Int) < byteRange width :=
    Int.emod_lt_of_pos operand hpos
  have hvalue : (ofBigEndian (bigEndian width (operand % (byteRange width : Int)).toNat) : Int) =
      operand % (byteRange width : Int) := by
    rw [ofBigEndian_bigEndian, ← byteRange_eq, Nat.mod_eq_of_lt (by omega),
      Int.toNat_of_nonneg hlow]
  refine ⟨length_bigEndian _ _, ?_, fun hnonneg => ?_⟩
  · rw [hvalue, byteRange_eq, Nat.cast_pow]
    exact Int.mod_modEq operand _
  · rw [hvalue]
    exact Int.emod_eq_of_lt hnonneg (by omega)

end Line

/-! ## Words of 64 bits -/

namespace Word

variable {a b width mask : UInt64}

/-- A product, which has to fit a word. -/
def mul? (a b : UInt64) : Option UInt64 :=
  if a.toNat * b.toNat < UInt64.size then some (a * b) else none

/-- A difference, which must not be negative. -/
def sub? (a b : UInt64) : Option UInt64 := if b ≤ a then some (a - b) else none

/-- A shift to the left, by fewer places than a word has. -/
def shiftLeft? (word places : UInt64) : Option UInt64 :=
  if places < 64 then some (word <<< places) else none

/-- The bytes from an index on, which must not lie beyond their end. -/
def drop? (start : UInt64) (bytes : List UInt8) : Option (List UInt8) :=
  if start.toNat ≤ bytes.length then some (bytes.drop start.toNat) else none

/-- A difference, or zero in the place of a negative one. -/
def saturatingSub (a b : UInt64) : UInt64 := if b ≤ a then a - b else 0

/-- The word with all bits of its low `width` bytes set. -/
def mask? (width : UInt64) : Option UInt64 := do sub? (← shiftLeft? 1 (← mul? 8 width)) 1

theorem toNat_saturatingSub (a b : UInt64) : (saturatingSub a b).toNat = a.toNat - b.toNat := by
  unfold saturatingSub
  split
  next hle => exact UInt64.toNat_sub_of_le a b hle
  next hlt =>
    rw [UInt64.le_iff_toNat_le] at hlt
    simp only [UInt64.toNat_zero]
    omega

/-- There is a mask for each of the widths that a slot can have. -/
theorem exists_mask? (hpos : 1 ≤ width.toNat) (hle : width.toNat ≤ 4) :
    ∃ mask, mask? width = some mask ∧ mask.toNat = 256 ^ width.toNat - 1 := by
  have hwidths : width = 1 ∨ width = 2 ∨ width = 3 ∨ width = 4 := by
    simp only [← UInt64.toNat_inj, UInt64.reduceToNat]
    omega
  rcases hwidths with rfl | rfl | rfl | rfl <;> exact ⟨_, rfl, rfl⟩

/-- The last bytes of the eight bytes of a word. -/
theorem drop?_bigEndian (hle : width.toNat ≤ 8) (number : Nat) :
    ((sub? 8 width).bind fun start => drop? start (bigEndian 8 number)) =
      some (bigEndian width.toNat number) := by
  have hword : width ≤ 8 := UInt64.le_iff_toNat_le.mpr hle
  have hstart : (8 - width).toNat = 8 - width.toNat := UInt64.toNat_sub_of_le 8 width hword
  have hlow := drop_bigEndian (8 - width.toNat) width.toNat number
  rw [Nat.sub_add_cancel hle] at hlow
  simp [sub?, hword, drop?, hstart, hlow]

/-- A word of 64 bits that holds an integer of 32 bits differs from it by a multiple of `2 ^ 64`. -/
theorem toNat_toUInt64 (operand : Int32) :
    (operand.toInt64.toUInt64.toNat : Int) = operand.toInt % 2 ^ 64 := by
  have hword : operand.toInt = (operand.toInt64.toUInt64.toNat : Int).bmod (2 ^ 64) :=
    (Int32.toInt_toInt64 operand).symm.trans (BitVec.toInt_eq_toNat_bmod _)
  have hrange : operand.toInt64.toUInt64.toNat < 2 ^ 64 := operand.toInt64.toUInt64.toNat_lt
  have hmod : (operand.toInt64.toUInt64.toNat : Int).bmod (2 ^ 64) % ((2 ^ 64 : Nat) : Int) =
      (operand.toInt64.toUInt64.toNat : Int) % ((2 ^ 64 : Nat) : Int) := Int.bmod_emod
  rw [hword]
  omega

/-- Masking leaves the integer modulo the range of the mask. -/
theorem toNat_and_mask {width : Nat} (hle : width ≤ 4) (hmask : mask.toNat = 256 ^ width - 1)
    (operand : Int32) : (operand.toInt64.toUInt64 &&& mask).toNat =
      (operand.toInt % (byteRange width : Int)).toNat := by
  have hpower : 256 ^ width = 2 ^ (8 * width) := by rw [Nat.pow_mul]
  have hdvd : ((byteRange width : Nat) : Int) ∣ 2 ^ 64 := by
    rw [byteRange_eq, hpower]
    exact_mod_cast Nat.pow_dvd_pow 2 (by omega : 8 * width ≤ 64)
  rw [UInt64.toNat_and, hmask, hpower, Nat.and_two_pow_sub_one_eq_mod, ← hpower, ← byteRange_eq,
    ← Int.emod_emod_of_dvd operand.toInt hdvd, ← toNat_toUInt64]
  omega

end Word

namespace Line

variable {line : Line} {operands : List Int32} {size : UInt64}

/-- The bytes of an operand, computed with words.  There is no result if a step is out of range. -/
def operandWords (address : UInt32) (width : UInt64) (operand : Int32) :
    Option (Except ObjectError (List UInt8)) :=
  if width == 0 || 4 < width then return .error (.operandOverflow address operand.toInt)
  else do
    let mask ← Word.mask? width
    if mask < operand.toInt.natAbs.toUInt64 then
      return .error (.operandOverflow address operand.toInt)
    else
      let start ← Word.sub? 8 width
      let bytes ← Word.drop? start (bigEndian 8 (operand.toInt64.toUInt64 &&& mask).toNat)
      return .ok bytes

/-- The bytes of all operands, up to the first that is an error. -/
def slotWords (address : UInt32) (width : UInt64) :
    List Int32 → Option (Except ObjectError (List (List UInt8)))
  | [] => return .ok []
  | operand :: rest => do
    match ← operandWords address width operand with
    | .error error => return .error error
    | .ok bytes =>
      let later ← slotWords address width rest
      return later.map (bytes :: ·)

/-- The width of the slots of a line, computed with words. -/
def widthWord (line : Line) (operands : List Int32) (size : UInt64) : UInt64 :=
  if 1 < operands.length then 1 else Word.saturatingSub size line.opcodeSize.toUInt64

/-- The groups of bytes of a line, computed with words. -/
def groupWords (line : Line) (operands : List Int32) (size : UInt64) :
    Option (Except ObjectError (List (List UInt8))) := do
  let slots ← slotWords (line.address.getD 0) (line.widthWord operands size) operands
  return slots.map (line.opcode.toList.map Opcode.bytes ++ ·)

/-- The operands of a line have 32 bits and its size has 64. -/
structure InWords (line : Line) (operands : List Int32) (size : UInt64) : Prop where
  operands_eq : line.operands = operands.map Int32.toInt
  size_eq : line.size = size.toNat

theorem operandWords_eq (address : UInt32) (width : UInt64) (operand : Int32) :
    operandWords address width operand =
      some (operandBytes address width.toNat operand.toInt) := by
  by_cases hwidth : width == 0 || 4 < width
  · rw [operandWords, if_pos hwidth]
    simp only [Bool.or_eq_true, beq_iff_eq, decide_eq_true_eq, ← UInt64.toNat_inj,
      UInt64.lt_iff_toNat_lt, UInt64.reduceToNat] at hwidth
    have hslot : ¬ InSlot width.toNat operand.toInt := by
      rintro ⟨hpos, hle, -⟩
      omega
    rw [operandBytes_of_not_inSlot address hslot]
    rfl
  · rw [operandWords, if_neg hwidth]
    simp only [Bool.or_eq_true, beq_iff_eq, decide_eq_true_eq, ← UInt64.toNat_inj,
      UInt64.lt_iff_toNat_lt, UInt64.reduceToNat] at hwidth
    have hpos : 1 ≤ width.toNat := by omega
    have hle : width.toNat ≤ 4 := by omega
    obtain ⟨mask, hmask, hvalue⟩ := Word.exists_mask? hpos hle
    -- A magnitude of 32 bits is a word, and is compared as one.
    have hmagnitude : operand.toInt.natAbs.toUInt64.toNat = operand.toInt.natAbs := by
      have hlow := operand.le_toInt
      have hhigh := operand.toInt_lt
      exact Nat.mod_eq_of_lt (by omega)
    have hslot : mask < operand.toInt.natAbs.toUInt64 ↔ ¬ InSlot width.toNat operand.toInt := by
      have hrange : 0 < byteRange width.toNat := Nat.pow_pos (by decide)
      rw [UInt64.lt_iff_toNat_lt, hvalue, hmagnitude, inSlot_iff, ← byteRange_eq]
      omega
    rw [hmask]
    by_cases hfits : InSlot width.toNat operand.toInt
    · have hbelow : ¬ mask < operand.toInt.natAbs.toUInt64 := fun hlarge => hslot.mp hlarge hfits
      have hbytes := Word.drop?_bigEndian (Nat.le_trans hle (by decide))
        (operand.toInt64.toUInt64 &&& mask).toNat
      rw [operandBytes_of_inSlot address hfits, ← Word.toNat_and_mask hle hvalue]
      simp only [Option.bind_eq_bind, Option.bind_some, if_neg hbelow, ← Option.bind_assoc, hbytes,
        Option.pure_def]
    · rw [operandBytes_of_not_inSlot address hfits]
      exact if_pos (hslot.mpr hfits)

theorem slotWords_eq (address : UInt32) (width : UInt64) (operands : List Int32) :
    slotWords address width operands =
      some ((operands.map Int32.toInt).mapM (operandBytes address width.toNat)) := by
  induction operands with
  | nil => rfl
  | cons operand rest ih =>
      rw [slotWords, operandWords_eq, List.map_cons]
      cases hfirst : operandBytes address width.toNat operand.toInt with
      | error error =>
          rw [Outcome.mapM_cons_of_error hfirst]
          rfl
      | ok bytes =>
          rw [Outcome.mapM_cons_of_ok hfirst, ih]
          rfl

theorem InWords.toNat_widthWord (hwords : line.InWords operands size) :
    (line.widthWord operands size).toNat = line.operandWidth := by
  have hopcode : line.opcodeSize.toUInt64.toNat = line.opcodeSize := by
    have hsize : line.opcodeSize ≤ 2 := by
      unfold opcodeSize
      cases line.opcode with
      | none => exact Nat.zero_le 2
      | some opcode => exact opcode.size_le
    exact Nat.mod_eq_of_lt (by omega)
  rw [widthWord, operandWidth, hwords.operands_eq, List.length_map, hwords.size_eq]
  split
  · rfl
  · rw [Word.toNat_saturatingSub, hopcode]

/-- Words compute the bytes of a line, and no step of the computation is out of range. -/
theorem InWords.groupWords_eq (hwords : line.InWords operands size) :
    line.groupWords operands size = some line.byteGroups := by
  rw [groupWords, slotWords_eq, hwords.toNat_widthWord, ← hwords.operands_eq]
  rfl

/-! ## All operands of a line -/

theorem exists_byteGroups_iff : (∃ groups, line.byteGroups = .ok groups) ↔
    ∀ operand ∈ line.operands, InSlot line.operandWidth operand := by
  simp only [byteGroups, Outcome.map_eq_ok]
  constructor
  · rintro ⟨_, slots, hslots, -⟩ operand hmem
    obtain ⟨i, hget⟩ := List.getElem?_of_mem hmem
    obtain ⟨group, -, hgroup⟩ := Outcome.getElem?_of_forall₂ (Outcome.mapM_eq_ok.mp hslots) hget
    exact exists_operandBytes_iff.mp ⟨group, hgroup⟩
  · intro hall
    obtain ⟨slots, hslots⟩ := Outcome.exists_mapM_eq_ok fun operand hmem =>
      exists_operandBytes_iff.mpr (hall operand hmem)
    exact ⟨_, slots, hslots, rfl⟩

/-- All slots of a line have one width, so a line without operands needs none. -/
theorem forall_inSlot_iff {width : Nat} {operands : List Int} :
    (∀ operand ∈ operands, InSlot width operand) ↔
      operands = [] ∨ (1 ≤ width ∧ width ≤ 4) ∧
        ∀ operand ∈ operands, |operand| ≤ 256 ^ width - 1 := by
  constructor
  · intro hall
    rcases operands.eq_nil_or_concat with hnone | ⟨_, last, hlast⟩
    · exact .inl hnone
    · have hslot := hall last (by simp [hlast])
      exact .inr ⟨⟨hslot.width_pos, hslot.width_le⟩,
        fun operand hmem => (hall operand hmem).magnitude⟩
  · rintro (rfl | ⟨⟨hpos, hle⟩, hall⟩)
    · exact fun _ hmem => absurd hmem List.not_mem_nil
    · exact fun operand hmem => ⟨hpos, hle, hall operand hmem⟩

theorem slots_of_byteGroups {groups : List (List UInt8)} (hgroups : line.byteGroups = .ok groups) :
    ∃ slots, groups = line.opcode.toList.map Opcode.bytes ++ slots ∧
      List.Forall₂ (Shows line.operandWidth) line.operands slots := by
  obtain ⟨slots, hslots, rfl⟩ := Outcome.map_eq_ok.mp hgroups
  exact ⟨slots, rfl, (Outcome.mapM_eq_ok.mp hslots).imp fun _ _ => shows_of_operandBytes⟩

theorem byteGroups_eq_error_iff {error : ObjectError} : line.byteGroups = .error error ↔
    ∃ (i : Nat) (operand : Int), line.operands[i]? = some operand ∧
      ¬ InSlot line.operandWidth operand ∧
      (∀ j < i, ∀ earlier, line.operands[j]? = some earlier → InSlot line.operandWidth earlier) ∧
      error = .operandOverflow (line.address.getD 0) operand := by
  simp only [byteGroups, Outcome.map_eq_error, Outcome.mapM_eq_error, Outcome.FirstFault,
    operandBytes_eq_error_iff, exists_operandBytes_iff]
  refine exists_congr fun i => ?_
  constructor
  · rintro ⟨⟨operand, hget, hslot, herror⟩, hearlier⟩
    exact ⟨operand, hget, hslot, hearlier, herror⟩
  · rintro ⟨operand, hget, hslot, hearlier, herror⟩
    exact ⟨⟨operand, hget, hslot, herror⟩, hearlier⟩

/-- The bytes of any line.  They can be formed if there are no operands, or if the slots have one to
four bytes and the magnitude of every operand is a number of that many bytes.  They are those of the
opcode and then one group for each operand, which has the width of the slots and is the operand
modulo the numbers of that width.  Otherwise the first operand that does not fit is reported.
Operands of 32 bits and a size of 64 bits never take the computation out of the range of words. -/
theorem slots_of_line (line : Line) :
    ((∃ groups, line.byteGroups = .ok groups) ↔
      line.operands = [] ∨ (1 ≤ line.operandWidth ∧ line.operandWidth ≤ 4) ∧
        ∀ operand ∈ line.operands, |operand| ≤ 256 ^ line.operandWidth - 1) ∧
    (∀ groups, line.byteGroups = .ok groups →
      ∃ slots, groups = line.opcode.toList.map Opcode.bytes ++ slots ∧
        List.Forall₂ (Shows line.operandWidth) line.operands slots) ∧
    (∀ error, line.byteGroups = .error error ↔
      ∃ (i : Nat) (operand : Int), line.operands[i]? = some operand ∧
        ¬ InSlot line.operandWidth operand ∧
        (∀ j < i, ∀ earlier, line.operands[j]? = some earlier →
          InSlot line.operandWidth earlier) ∧
        error = .operandOverflow (line.address.getD 0) operand) ∧
    ∀ operands size, line.InWords operands size →
      line.groupWords operands size = some line.byteGroups := by
  refine ⟨?_, fun _ => slots_of_byteGroups, fun _ => byteGroups_eq_error_iff,
    fun _ _ => InWords.groupWords_eq⟩
  rw [exists_byteGroups_iff, forall_inSlot_iff]

/-- A line whose three bytes leave two for its operand, which is negative. -/
def negativeLine : Line :=
  { address := some 0x10, opcode := some (.short 0xCC), operands := [-0x1234], size := 3 }

theorem slots_of_negativeLine :
    negativeLine.byteGroups = .ok [[0xCC], [0xED, 0xCC]] ∧
      negativeLine.InWords [-0x1234] 3 ∧
      negativeLine.groupWords [-0x1234] 3 = some (.ok [[0xCC], [0xED, 0xCC]]) ∧
      ∃ slots, [[0xCC], [0xED, 0xCC]] = [[0xCC]] ++ slots ∧
        List.Forall₂ (Shows 2) [-0x1234] slots := by
  have hgroups : negativeLine.byteGroups = .ok [[0xCC], [0xED, 0xCC]] := by decide +kernel
  have hwords : negativeLine.InWords [-0x1234] 3 := ⟨by decide, by decide⟩
  obtain ⟨-, hslots, -, hcomputed⟩ := slots_of_line negativeLine
  exact ⟨hgroups, hwords, (hcomputed _ _ hwords).trans (congrArg some hgroups), hslots _ hgroups⟩

end Line

end TwoPass
