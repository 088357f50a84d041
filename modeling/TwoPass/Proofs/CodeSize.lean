import TwoPass.Proofs.Linking
import TwoPass.Proofs.Merging
import TwoPass.Proofs.OperandSlots
import TwoPass.Proofs.PlainLines
import TwoPass.Proofs.TableHistory

/-!
# Lines take as many bytes as their size says

The first pass advances the address by the size of a line long before its bytes are known, and the
bytes are cut later by a rule of their own: several operands take one byte each, a single one takes
what the size leaves.  `Line.Fits` is the agreement of the two: there is one width that accounts for
the size, is the width of the rule, and holds every operand.

The encoder chooses sizes so that this is the case (`Encoded.fits`), whatever label is filled in
later (`fits_of_link`), and `Fits.bytes` turns it into bytes.
-/

namespace TwoPass

variable {setting : Setting} {source : List Text} {program : Program} {symbols : Symbols}

/-! ## Lines that fit -/

@[simp] theorem byteRange_one : byteRange 1 = 256 := by decide

@[simp] theorem byteRange_two : byteRange 2 = 65536 := by decide

namespace Line

variable {line : Line} {opcode : Opcode} {width : Nat}

/-- The size of a line is that of its opcode and of operands with `width` bytes each, and every
operand fits these bytes. -/
structure Fits (line : Line) (opcode : Opcode) (width : Nat) : Prop where
  opcode_eq : line.opcode = some opcode
  size_eq : line.size = opcode.size + line.operands.length * width
  width_mem : width = 1 ∨ width = 2
  several : 1 < line.operands.length → width = 1
  range : ∀ operand ∈ line.operands, operand.natAbs < byteRange width

theorem operandBytes_of_lt {address : UInt32} {operand : Int} (hwidth : width = 1 ∨ width = 2)
    (hrange : operand.natAbs < byteRange width) :
    ∃ bytes, operandBytes address width operand = .ok bytes ∧ bytes.length = width := by
  have hslot : InSlot width operand :=
    inSlot_iff.mpr ⟨by rcases hwidth with rfl | rfl <;> decide, hrange⟩
  exact ⟨_, operandBytes_of_inSlot address hslot, length_bigEndian _ _⟩

/-- A single operand gets the bytes that the size leaves, several get one byte each: both are the
width that the size was computed with. -/
theorem Fits.operandWidth (hfits : line.Fits opcode width) (hsome : line.operands ≠ []) :
    line.operandWidth = width := by
  have hopcode : line.opcodeSize = opcode.size := by simp [opcodeSize, hfits.opcode_eq]
  have hlength : 0 < line.operands.length := List.length_pos_iff.mpr hsome
  unfold Line.operandWidth
  split
  next hseveral => rw [hfits.several hseveral]
  next hsingle =>
    have hone : line.operands.length = 1 := by omega
    rw [hfits.size_eq, hopcode, hone]
    omega

theorem length_flatten_of_forall {groups : List (List UInt8)}
    (hgroups : ∀ group ∈ groups, group.length = width) :
    groups.flatten.length = groups.length * width := by
  have hlengths : groups.map List.length = List.replicate groups.length width :=
    List.eq_replicate_iff.mpr ⟨List.length_map .., by simpa using hgroups⟩
  rw [List.length_flatten, hlengths, List.sum_replicate_nat]

theorem Fits.bytes (hfits : line.Fits opcode width) :
    ∃ bytes, line.bytes = .ok bytes ∧ bytes.length = line.size := by
  have hoperands : ∀ operand ∈ line.operands, ∃ group,
      operandBytes (line.address.getD 0) line.operandWidth operand = .ok group ∧
        group.length = width := by
    intro operand hoperand
    rw [hfits.operandWidth (List.ne_nil_of_mem hoperand)]
    exact operandBytes_of_lt hfits.width_mem (hfits.range operand hoperand)
  obtain ⟨groups, hgroups⟩ := Outcome.exists_mapM_eq_ok fun operand hoperand =>
    (hoperands operand hoperand).imp fun _ h => h.1
  have hall := Outcome.mapM_eq_ok.mp hgroups
  have hwidths : ∀ group ∈ groups, group.length = width := by
    intro group hgroup
    obtain ⟨i, hget⟩ := List.getElem?_of_mem hgroup
    obtain ⟨operand, hoperand, hbytes⟩ := Outcome.getElem?_of_forall₂_right hall hget
    obtain ⟨group', hbytes', hlength⟩ := hoperands operand (List.mem_of_getElem? hoperand)
    rw [hbytes] at hbytes'
    cases hbytes'
    exact hlength
  refine ⟨opcode.bytes ++ groups.flatten, ?_, ?_⟩
  · simp [Line.bytes, byteGroups, hgroups, hfits.opcode_eq, Except.map]
  · rw [List.length_append, Opcode.length_bytes, length_flatten_of_forall hwidths,
      ← hall.length_eq, hfits.size_eq]

/-- Data lines fit: every byte after the first is an operand of one byte. -/
theorem fits_data {address : UInt32} {bytes : List UInt8} (hsome : bytes ≠ []) :
    (Line.data address bytes).Fits (.short (bytes.headD 0)) 1 where
  opcode_eq := rfl
  size_eq := by
    have hlength : 0 < bytes.length := List.length_pos_iff.mpr hsome
    simp only [data, Opcode.size, List.length_map, List.length_tail]
    omega
  width_mem := .inl rfl
  several := fun _ => rfl
  range := by
    intro operand hoperand
    obtain ⟨byte, -, rfl⟩ := List.mem_map.mp hoperand
    exact byte.toNat_lt

end Line

/-! ## Instructions that fit -/

/-- An operand that needs no more than `width` bytes.  A label that stands for an address may need
two of them. -/
def Operand.Fits (mode : Mode) (width : Nat) : Operand → Prop
  | .value word => word.toNat < byteRange width
  | .label _ => mode = .extended → width = 2

namespace Instruction

variable {instruction : Instruction} {entry : Entry} {mnemonic : Text} {tokens : List Text}
  {width : Nat}

/-- The size of an instruction leaves `width` bytes for each operand, and these hold whatever the
operand turns out to be. -/
structure Fits (instruction : Instruction) (width : Nat) : Prop where
  size_eq : instruction.size = instruction.opcode.size + instruction.operands.length * width
  width_mem : width = 1 ∨ width = 2
  several : 1 < instruction.operands.length → width = 1
  range : ∀ operand ∈ instruction.operands, operand.Fits instruction.mode width

theorem lt_byteRange_one {word : UInt32} (hlimit : word ≤ byteMax) : word.toNat < byteRange 1 := by
  have hle : word.toNat ≤ 0xFF := UInt32.le_iff_toNat_le.mp hlimit
  rw [byteRange_one]
  omega

theorem lt_byteRange_two {word : UInt32} (hlimit : word ≤ wordMax) : word.toNat < byteRange 2 := by
  have hle : word.toNat ≤ 0xFFFF := UInt32.le_iff_toNat_le.mp hlimit
  rw [byteRange_two]
  omega

/-- An instruction with a single operand fits if the operand does. -/
theorem fits_single {mode : Mode} {opcode : Opcode} {operand : Operand}
    (hwidth : width = 1 ∨ width = 2) (hoperand : operand.Fits mode width) :
    (sized mode opcode [operand] width).Fits width where
  size_eq := by simp [sized]
  width_mem := hwidth
  several := by simp [sized]
  range := by simpa [sized] using hoperand

/-- A branch target takes one byte in every mode but the extended one. -/
theorem fits_of_resolveOrDefer_byteMax {mode : Mode} {token : Text} {operand : Operand}
    (hmode : mode ≠ .extended) (h : symbols.resolveOrDefer byteMax token = .ok operand) :
    operand.Fits mode 1 := by
  rcases Symbols.resolveOrDefer_eq_ok.mp h with ⟨word, -, hlimit, rfl⟩ | ⟨-, rfl⟩
  · exact lt_byteRange_one hlimit
  · exact fun hextended => absurd hextended hmode

theorem fits_of_resolveOrDefer_wordMax {mode : Mode} {token : Text} {operand : Operand}
    (h : symbols.resolveOrDefer wordMax token = .ok operand) : operand.Fits mode 2 := by
  rcases Symbols.resolveOrDefer_eq_ok.mp h with ⟨word, -, hlimit, rfl⟩ | ⟨-, rfl⟩
  · exact lt_byteRange_two hlimit
  · exact fun _ => rfl

theorem Placed.fits {modes : Modes} {operand : Operand} (hplaced : Placed modes operand instruction)
    (hlong : operand.Fits .extended 2) : ∃ width, instruction.Fits width := by
  cases hplaced with
  | direct hbyte _ => exact ⟨1, fits_single (.inl rfl) (lt_byteRange_one hbyte)⟩
  | extended _ _ => exact ⟨2, fits_single (.inr rfl) hlong⟩

/-- Every encoded instruction fits, provided that special mnemonics take two or three operands. -/
theorem Encoded.fits (hencoded : Encoded symbols mnemonic entry tokens instruction)
    (hentry : ∀ special, entry = .special special → 2 ≤ special.operands ∧ special.operands ≤ 3) :
    ∃ width, instruction.Fits width := by
  cases hencoded with
  | inherent _ =>
      refine ⟨1, ?_, .inl rfl, ?_, ?_⟩ <;> simp [sized]
  | branch _ htarget =>
      exact ⟨1, fits_single (.inl rfl) (fits_of_resolveOrDefer_byteMax (by decide) htarget)⟩
  | @immediate _ _ _ word _ _ hword =>
      obtain ⟨-, hlimit⟩ := Symbols.resolve_eq_ok.mp hword
      by_cases hbyte : word ≤ byteMax
      · rw [if_pos hbyte]
        exact ⟨1, fits_single (.inl rfl) (lt_byteRange_one hbyte)⟩
      · rw [if_neg hbyte]
        exact ⟨2, fits_single (.inr rfl) (lt_byteRange_two hlimit)⟩
  | indexed _ _ _ _ hoffset =>
      obtain ⟨-, hlimit⟩ := Symbols.resolve_eq_ok.mp hoffset
      exact ⟨1, fits_single (.inl rfl) (lt_byteRange_one hlimit)⟩
  | jump _ _ _ _ _ htarget =>
      exact ⟨2, fits_single (.inr rfl) (fits_of_resolveOrDefer_wordMax htarget)⟩
  | call _ _ _ _ htarget hplaced => exact hplaced.fits (fits_of_resolveOrDefer_wordMax htarget)
  | address _ _ _ _ _ hword hplaced =>
      obtain ⟨-, hlimit⟩ := Symbols.resolve_eq_ok.mp hword
      exact hplaced.fits (lt_byteRange_two hlimit)
  | @special special _ targets _ _ _ mode _ _ _ branch hcount hparts hbase _ haddress hmask
      htargets =>
      obtain ⟨-, hthree⟩ := hentry special rfl
      obtain ⟨-, haddressLimit⟩ := Symbols.resolve_eq_ok.mp haddress
      obtain ⟨-, hmaskLimit⟩ := Symbols.resolve_eq_ok.mp hmask
      have htargetsOk := Outcome.mapM_eq_ok.mp htargets
      -- All operands are there: address, mask and at most one branch target.
      have hoperands : special.operands = 2 + branch.length := by
        have hlength : (targets.take 1).length = branch.length := htargetsOk.length_eq
        rw [List.length_take] at hlength
        rw [hparts, List.length_cons, List.length_cons] at hcount
        omega
      refine ⟨1, ?_, .inl rfl, fun _ => rfl, ?_⟩
      · simp only [sized, List.length_cons]
        omega
      · intro operand hoperand
        simp only [sized, List.mem_cons] at hoperand ⊢
        rcases hoperand with rfl | rfl | hbranch
        · exact lt_byteRange_one haddressLimit
        · exact lt_byteRange_one hmaskLimit
        · obtain ⟨i, hget⟩ := List.getElem?_of_mem hbranch
          obtain ⟨token, -, htoken⟩ := Outcome.getElem?_of_forall₂_right htargetsOk hget
          have hmode : mode ≠ .extended := by
            rintro rfl
            simpa using specialBase_cases hbase
          exact fits_of_resolveOrDefer_byteMax hmode htoken

/-- Filling in labels keeps to the bytes that were left for them. -/
theorem fits_of_link {address : UInt32} {after : Line} (hfits : instruction.Fits width)
    (hlink : (instruction.toLine address).link symbols = .ok after) :
    after.Fits instruction.opcode width := by
  rw [Line.link_toLine] at hlink
  obtain ⟨numbers, hnumbers, rfl⟩ := Outcome.map_eq_ok.mp hlink
  have hall := Outcome.mapM_eq_ok.mp hnumbers
  refine ⟨rfl, ?_, hfits.width_mem, ?_, ?_⟩
  · simpa [toLine, ← hall.length_eq] using hfits.size_eq
  · simpa [← hall.length_eq] using hfits.several
  · intro number hnumber
    obtain ⟨i, hget⟩ := List.getElem?_of_mem hnumber
    obtain ⟨operand, hoperand, hvalue⟩ := Outcome.getElem?_of_forall₂_right hall hget
    have hoperandFits := hfits.range operand (List.mem_of_getElem? hoperand)
    cases operand with
    | value word =>
        have hrange : word.toNat < byteRange width := hoperandFits
        have hlimit : word ≤ wordMax := by
          have hmax : wordMax.toNat = 65535 := by decide
          rw [UInt32.le_iff_toNat_le]
          rcases hfits.width_mem with rfl | rfl
          · rw [byteRange_one] at hrange
            omega
          · rw [byteRange_two] at hrange
            omega
        rw [Operand.number_value hlimit] at hvalue
        cases hvalue
        exact hrange
    | label name =>
        obtain ⟨target, -, ⟨hmode, hlimit, rfl⟩ | ⟨-, hreaches, hcut⟩⟩ :=
          Line.labelNumber_eq_ok.mp hvalue
        · have hwidth : width = 2 := hoperandFits (by simpa [toLine] using hmode)
          rw [hwidth]
          exact lt_byteRange_two hlimit
        · -- A distance of one byte fits either width.
          have hdistance : number.natAbs ≤ 0xFF := hcut ▸ hreaches.natAbs_le
          rcases hfits.width_mem with rfl | rfl
          · rw [byteRange_one]
            omega
          · rw [byteRange_two]
            omega

end Instruction

/-! ## A small program

Two segments, the second of which is placed before the first, with a branch on bits, a jump backward
and a constant in the place of a mask. -/

def sampleSetting : Setting where
  table := {
    standard := [("jmp".toList, [(.extended, .short 0x7E)]),
      ("bra".toList, [(.relative, .short 0x20)])]
    special := [("brset".toList, ⟨3, [(.direct, .short 0x12)]⟩)] }
  multipleOrigins := true

def sampleSource : List Text :=
  ["MASK EQU $0F".toList, " ORG $0100".toList, "LOOP".toList, " BRSET $20,#MASK DONE".toList,
    " JMP LOOP".toList, "DONE".toList, " BRA LOOP".toList, " ORG $00FE".toList,
    " FCB 1,2".toList, " END".toList]

def sampleProgram : Program where
  lines := [{}, {}, {},
    ⟨some 0x100, some (.short 0x12), some .direct, [0x20, 0x0F, 3], [], 4⟩,
    ⟨some 0x104, some (.short 0x7E), some .extended, [0x100], [], 3⟩, {},
    ⟨some 0x107, some (.short 0x20), some .relative, [-9], [], 2⟩, {},
    ⟨some 0xFE, some (.short 1), none, [2], [], 2⟩, {}]
  symbols := ⟨[("LOOP".toList, 0x100), ("DONE".toList, 0x107)], [("MASK".toList, 0x0F)]⟩

theorem built_sampleSetting : sampleSetting.table.Built := by
  have hjump : Table.insertStandard {} "JMP".toList [(.extended, .short 0x7E)] =
      .ok ⟨[("jmp".toList, [(.extended, .short 0x7E)])], []⟩ := by decide +kernel
  have hbranch : Table.insertStandard ⟨[("jmp".toList, [(.extended, .short 0x7E)])], []⟩
      "BRA".toList [(.relative, .short 0x20)] =
        .ok { sampleSetting.table with special := [] } := by decide +kernel
  have hbits : Table.insertSpecial { sampleSetting.table with special := [] } "BRSET".toList 3
      [(.direct, .short 0x12)] = .ok sampleSetting.table := by decide +kernel
  exact .special (.standard (.standard .empty hjump) hbranch) hbits

theorem assemble_sampleSource :
    Program.assemble sampleSetting sampleSource = .ok sampleProgram := by
  decide +kernel

/-! ## Whole programs -/

/-- `FCB` has one token at least. -/
theorem tokens_ne_nil {n : Nat} {tokens : List Text}
    (hreads : Reads source n (.formBytes tokens)) : tokens ≠ [] := by
  obtain ⟨text, -, hparse⟩ := reads_iff.mp hreads
  exact (Statement.said_of_parse hparse).wellFormed.1

namespace Program

/-- Every line of an assembled program is empty, or waits for nothing and fits. -/
theorem line_of_assemble (hbuilt : setting.table.Built)
    (hassemble : assemble setting source = .ok program) {line : Line}
    (hline : line ∈ program.lines) :
    line = .empty ∨ line.pending = [] ∧
      ∃ address opcode width, line.address = some address ∧ line.Fits opcode width := by
  obtain ⟨draft, progress, -, hreached, -, -, hlinked⟩ := assemble_cases hassemble
  obtain ⟨n, hget⟩ := List.getElem?_of_mem hline
  obtain ⟨before, hbefore, hlink⟩ := Outcome.getElem?_of_forall₂_right hlinked hget
  obtain ⟨statement, known, next, hreads, -, hobeyed⟩ := hreached.obeyed_at hbefore
  -- A line that waits for nothing is not touched by the second pass.
  have hsettled : before.pending = [] → line = before := fun hpending => by
    rw [Line.link_of_settled _ _ hpending] at hlink
    exact (Except.ok.inj hlink).symm
  cases hobeyed with
  | blank | label | constant | origin | finish => exact .inl (hsettled rfl)
  | @formBytes tokens address bytes htarget hbytes =>
      have hsome : bytes ≠ [] := by
        rintro rfl
        exact tokens_ne_nil hreads (List.forall₂_nil_right_iff.mp (Outcome.mapM_eq_ok.mp hbytes))
      rw [hsettled rfl]
      exact .inr ⟨rfl, address, _, 1, rfl, Line.fits_data hsome⟩
  | @instruction mnemonic operands address instruction htarget hencode =>
      obtain ⟨entry, hlookup, hencoded⟩ := Instruction.encode_cases hencode
      obtain ⟨width, hfits⟩ := hencoded.fits fun special hspecial =>
        hbuilt.lookup_special (hspecial ▸ hlookup)
      have hframe := Line.link_frame hlink
      refine .inr ⟨by rw [hframe], address, instruction.opcode, width, by rw [hframe]; rfl,
        Instruction.fits_of_link hfits hlink⟩

theorem bytes_of_assemble (hbuilt : setting.table.Built)
    (hassemble : assemble setting source = .ok program) {line : Line}
    (hline : line ∈ program.lines) :
    ∃ bytes, line.bytes = .ok bytes ∧ bytes.length = line.size := by
  rcases line_of_assemble hbuilt hassemble hline with rfl | ⟨-, _, _, _, -, hfits⟩
  · exact ⟨[], rfl, rfl⟩
  · exact hfits.bytes

/-- Code is never empty, since an opcode is not. -/
theorem size_pos_of_assemble (hbuilt : setting.table.Built)
    (hassemble : assemble setting source = .ok program) {line : Line}
    (hline : line ∈ program.lines) {address : UInt32} (haddress : line.address = some address) :
    0 < line.size := by
  rcases line_of_assemble hbuilt hassemble hline with rfl | ⟨-, _, opcode, _, -, hfits⟩
  · cases haddress
  · rw [hfits.size_eq]
    cases opcode <;> simp only [Opcode.size] <;> omega

theorem ready_of_assemble (hbuilt : setting.table.Built)
    (hassemble : assemble setting source = .ok program) :
    ∀ line ∈ program.lines, line.Ready := by
  intro line hline
  rcases line_of_assemble hbuilt hassemble hline with rfl | ⟨hpending, address, _, _, haddress, -⟩
  · exact .inl rfl
  · obtain ⟨bytes, hbytes, hlength⟩ := bytes_of_assemble hbuilt hassemble hline
    have hsize := size_pos_of_assemble hbuilt hassemble hline haddress
    refine .inr ⟨⟨address, bytes⟩, Line.piece?_eq_some.mpr ⟨haddress, hbytes⟩, hpending, ?_⟩
    exact List.length_pos_iff.mp (hlength ▸ hsize)

/-- What assembles can be written.  No line of an assembled program waits for a label, every line
has bytes, and a line of code has as many of them as its size says; making runs of the lines never
meets a missing label or an operand that is too large.  The last part goes back to the first pass:
the counter was moved by the number of bytes that the line has in the end. -/
theorem size_of_assemble (hbuilt : setting.table.Built)
    (hassemble : assemble setting source = .ok program) :
    (∀ line ∈ program.lines, line.pending = [] ∧
      ∃ bytes, line.bytes = .ok bytes ∧ (line.address.isSome → bytes.length = line.size)) ∧
    (∀ error, Run.ofLines program.lines = .error error →
      (∀ index, error ≠ .unresolved index) ∧
      ∀ address operand, error ≠ .operandOverflow address operand) ∧
    ∃ draft, layOut setting source = .ok draft ∧
      ∀ n line address, program.lines[n]? = some line → line.address = some address →
        ∃ text before placed after bytes, source[n]? = some text ∧
          Progress.Reached setting (source.take n) (draft.lines.take n) before ∧
          before.step setting text = .ok (placed, after) ∧ draft.lines[n]? = some placed ∧
          line.bytes = .ok bytes ∧ before.target = some address ∧
          after.target = some (address + bytes.length.toUInt32) := by
  refine ⟨?_, ?_, ?_⟩
  · intro line hline
    obtain ⟨bytes, hbytes, hlength⟩ := bytes_of_assemble hbuilt hassemble hline
    refine ⟨?_, bytes, hbytes, fun _ => hlength⟩
    rcases line_of_assemble hbuilt hassemble hline with rfl | ⟨hpending, -⟩
    · rfl
    · exact hpending
  · intro error herror
    have hready := ready_of_assemble hbuilt hassemble
    rcases Run.error_of_ofLines hready herror with rfl | ⟨_, _, rfl⟩ | ⟨_, rfl⟩ <;> simp
  · obtain ⟨draft, progress, hlayOut, hreached, -, -, hlinked⟩ := assemble_cases hassemble
    refine ⟨draft, hlayOut, ?_⟩
    intro n line address hget haddress
    obtain ⟨placed, hplaced, hlink⟩ := Outcome.getElem?_of_forall₂_right hlinked hget
    obtain ⟨text, before, after, htext, hbefore, hstep⟩ := hreached.step_at hplaced
    obtain ⟨bytes, hbytes, hlength⟩ :=
      bytes_of_assemble hbuilt hassemble (List.mem_of_getElem? hget)
    obtain ⟨statement, -, -, hobeyed⟩ := Progress.step_cases hstep
    -- The second pass has changed neither the address nor the size.
    rw [Line.link_frame hlink] at haddress hlength
    obtain ⟨htarget, hmoved⟩ := hobeyed.target_of_address haddress
    rw [← hlength] at hmoved
    exact ⟨text, before, placed, after, bytes, htext, hbefore, hstep, hplaced, hbytes, htarget,
      hmoved⟩

theorem size_of_sampleProgram :
    sampleSetting.table.Built ∧ assemble sampleSetting sampleSource = .ok sampleProgram ∧
      ∀ line ∈ sampleProgram.lines, line.pending = [] ∧
        ∃ bytes, line.bytes = .ok bytes ∧ (line.address.isSome → bytes.length = line.size) :=
  ⟨built_sampleSetting, assemble_sampleSource,
    (size_of_assemble built_sampleSetting assemble_sampleSource).1⟩

end Program

end TwoPass
