import TwoPass.Proofs.Names

/-!
# Where branches lead

A branch stores the distance to its label in its last byte, and the processor reads that byte as a
signed number.  Three rules meet here: the second pass admits distances up to 255 either way, a line
keeps the low byte of the distance, and a byte stands for a number from -128 to 127.  So the branch
leads to its label exactly if the distance is such a number, and else to the address 256 bytes
before or after it (`branch_of_assemble`).
-/

namespace TwoPass

/-! ## The last byte of a line -/

/-- The low byte of a number, read with its sign. -/
theorem toInt_toInt8_lowByte (number : Int) :
    (number % 256).toNat.toUInt8.toInt8.toInt = number.bmod 256 := by
  have hrange : (number % 256).toNat < 256 := by omega
  have hbyte : ((number % 256).toNat.toUInt8.toNat : Int) = number % 256 := by
    rw [Nat.toUInt8, UInt8.toNat_ofNat_of_lt' hrange]
    omega
  calc (number % 256).toNat.toUInt8.toInt8.toInt
      = ((number % 256).toNat.toUInt8.toNat : Int).bmod 256 := BitVec.toInt_eq_toNat_bmod _
    _ = (number % 256).bmod 256 := by rw [hbyte]
    _ = number.bmod 256 := Int.emod_bmod number 256

namespace Line

variable {line : Line} {opcode : Opcode} {number : Int} {bytes : List UInt8}

theorem operandBytes_one {address : UInt32} {group : List UInt8}
    (hgroup : operandBytes address 1 number = .ok group) :
    group = [(number % 256).toNat.toUInt8] := by
  obtain ⟨-, rfl⟩ := operandBytes_eq_ok_iff.mp hgroup
  rw [byteRange_one]
  rfl

/-- In a line whose operands take one byte each, the last byte is the low byte of the last
operand. -/
theorem Fits.getLast?_bytes (hfits : line.Fits opcode 1)
    (hlast : line.operands.getLast? = some number) (hbytes : line.bytes = .ok bytes) :
    bytes.getLast? = some (number % 256).toNat.toUInt8 := by
  obtain ⟨groups, hgroups, rfl⟩ := Outcome.map_eq_ok.mp hbytes
  obtain ⟨operandGroups, hoperands, rfl⟩ := Outcome.map_eq_ok.mp hgroups
  have hall := Outcome.mapM_eq_ok.mp hoperands
  rw [List.getLast?_eq_getElem?] at hlast
  obtain ⟨group, hget, hgroup⟩ := Outcome.getElem?_of_forall₂ hall hlast
  rw [hfits.operandWidth (List.ne_nil_of_mem (List.mem_of_getElem? hlast))] at hgroup
  rw [hall.length_eq, ← List.getLast?_eq_getElem?] at hget
  obtain ⟨before, hsplit⟩ := List.getLast?_eq_some_iff.mp hget
  rw [hsplit, operandBytes_one hgroup]
  simp

/-- The address that a branch leads to: its last byte is a signed distance from its end. -/
def branchTarget? (line : Line) : Option Int :=
  line.piece?.bind fun piece =>
    piece.bytes.getLast?.map fun byte => piece.start.toNat + line.size + byte.toInt8.toInt

theorem Fits.branchTarget? {address : UInt32} (hfits : line.Fits opcode 1)
    (haddress : line.address = some address) (hlast : line.operands.getLast? = some number) :
    line.branchTarget? = some (address.toNat + line.size + number.bmod 256) := by
  obtain ⟨bytes, hbytes, -⟩ := hfits.bytes
  have hpiece : line.piece? = some ⟨address, bytes⟩ := piece?_eq_some.mpr ⟨haddress, hbytes⟩
  rw [Line.branchTarget?, hpiece, Option.bind_some, hfits.getLast?_bytes hlast hbytes,
    Option.map_some, toInt_toInt8_lowByte]

end Line

/-! ## Instructions that wait for a label -/

namespace Instruction

variable {symbols : Symbols} {mnemonic name : Text} {entry : Entry} {tokens : List Text}
  {instruction : Instruction} {position : Nat}

/-- A label is the last operand of an instruction. -/
theorem Encoded.length_of_label (hencoded : Encoded symbols mnemonic entry tokens instruction)
    (hget : instruction.operands[position]? = some (.label name)) :
    instruction.operands.length = position + 1 := by
  have hlt : position < instruction.operands.length := (List.getElem?_eq_some_iff.mp hget).1
  by_contra hmore
  obtain ⟨word, hword⟩ :=
    hencoded.value_of_lt (Nat.lt_succ_self position) (by omega)
  rw [hget] at hword
  cases hword

/-- A label that does not stand for an address has one byte, as all operands beside it have. -/
theorem Encoded.fits_one_of_label (hencoded : Encoded symbols mnemonic entry tokens instruction)
    (hentry : ∀ special, entry = .special special → 2 ≤ special.operands ∧ special.operands ≤ 3)
    (hget : instruction.operands[position]? = some (.label name))
    (hmode : instruction.mode ≠ .extended) : instruction.Fits 1 := by
  obtain ⟨width, hfits⟩ := hencoded.fits hentry
  have hmem : .label name ∈ instruction.operands := List.mem_of_getElem? hget
  cases hencoded with
  | inherent => cases hmem
  | branch _ htarget =>
      exact fits_single (.inl rfl) (fits_of_resolveOrDefer_byteMax (by decide) htarget)
  | immediate | indexed => cases List.mem_singleton.mp hmem
  | jump => exact absurd rfl hmode
  | call _ _ _ _ _ hplaced | address _ _ _ _ _ _ hplaced =>
      cases hplaced with
      | direct => cases List.mem_singleton.mp hmem
      | extended => exact absurd rfl hmode
  | special =>
      have hone : width = 1 := hfits.several (by simp [sized])
      exact hone ▸ hfits

end Instruction

/-! ## Whole programs -/

/-- What an open name denotes in a branch. -/
theorem Denotes.relative_of_open {source : List Text} {symbols : Symbols} {n : Nat} {line : Line}
    {token : Text} {number : Int} (hdenotes : Denotes source symbols n line token number)
    (hopen : Open source n token) (hmode : line.mode ≠ some .extended) :
    ∃ k target address, Reads source k (.label token) ∧ symbols.label? token = some target ∧
      line.address = some address ∧ number = target.toNat - (address.toNat + line.size : Int) ∧
      number.natAbs ≤ 0xFF := by
  cases hdenotes with
  | literal hliteral =>
      rw [hopen.1] at hliteral
      cases hliteral
  | constant _ hearlier => exact absurd hearlier (hopen.2 _)
  | absolute _ _ _ hextended => exact absurd hextended hmode
  | relative _ hlabel htarget _ haddress hdistance hlimit =>
      exact ⟨_, _, _, hlabel, htarget, haddress, hdistance, hlimit⟩

namespace Program

variable {setting : Setting} {source : List Text} {draft program : Program} {placed : Line}
  {n position : Nat} {name : Text}

/-- A name that the first pass has left open, after the second pass. -/
theorem linked_of_pending (hbuilt : setting.table.Built)
    (hassemble : assemble setting source = .ok program) (hlayOut : layOut setting source = .ok draft)
    (hdraft : draft.lines[n]? = some placed) (hpending : (position, name) ∈ placed.pending)
    (hmode : placed.mode ≠ some .extended) :
    ∃ mnemonic tokens line opcode number, Reads source n (.instruction mnemonic tokens) ∧
      Instruction.Deferrable setting.table mnemonic tokens position name ∧ Open source n name ∧
      program.lines[n]? = some line ∧ line.mode = placed.mode ∧ line.Fits opcode 1 ∧
      line.operands.getLast? = some number ∧
      Denotes source program.symbols n line name number := by
  obtain ⟨draft', progress, hlayOut', hreached, -, hsymbols, hlinked⟩ := assemble_cases hassemble
  cases hlayOut.symm.trans hlayOut'
  obtain ⟨statement, known, next, hreads, -, hobeyed⟩ := hreached.obeyed_at hdraft
  cases hobeyed with
  | blank | label | constant | origin | finish | formBytes => cases hpending
  | @instruction mnemonic tokens =>
      obtain ⟨before, address, entry, instruction, hbefore, hplaced, hlookup, hentry, hencoded⟩ :=
        encoded_of_reached hbuilt hreached hreads
      rw [Option.some.inj (hdraft.symm.trans hplaced)] at hpending hmode ⊢
      obtain ⟨i, hi, hget⟩ := Instruction.mem_pendingFrom.mp hpending
      obtain rfl : position = i := by omega
      have hrelative : instruction.mode ≠ .extended := fun h => hmode (congrArg some h)
      obtain ⟨hdeferrable, hnone⟩ := hencoded.deferrable_of_label hlookup hentry hget
      have hopen : Open source n name :=
        (hbefore.open_iff (Nat.le_of_lt hreads.lt_length)).mp hnone
      obtain ⟨line, hline, hlink⟩ := Outcome.getElem?_of_forall₂ hlinked hplaced
      have hone := hencoded.fits_one_of_label hentry hget hrelative
      have hfits := Instruction.fits_of_link hone hlink
      rw [Line.link_toLine] at hlink
      obtain ⟨numbers, hnumbers, rfl⟩ := Outcome.map_eq_ok.mp hlink
      have hall := Outcome.mapM_eq_ok.mp hnumbers
      obtain ⟨number, hnumber, hvalue⟩ := Outcome.getElem?_of_forall₂ hall hget
      have hlast : numbers.getLast? = some number := by
        rw [List.getLast?_eq_getElem?, ← hall.length_eq, hencoded.length_of_label hget]
        exact hnumber
      refine ⟨mnemonic, tokens, _, _, number, hreads, hdeferrable, hopen, hline, rfl, hfits, hlast,
        ?_⟩
      rw [hsymbols]
      exact denotes_of_labelNumber hreached hopen rfl (hencoded.size_le hentry) hvalue

/-- Where a branch leads.  A name that the first pass has left open, in any but the extended mode,
is that of a label in the source.  The label is at most 255 bytes away from the end of the line.
The last byte of the line leads to it if it is not more than 127 bytes after or 128 bytes before
that, and to the address 256 bytes before or after it otherwise. -/
theorem branch_of_assemble (hbuilt : setting.table.Built)
    (hassemble : assemble setting source = .ok program) (hlayOut : layOut setting source = .ok draft)
    (hdraft : draft.lines[n]? = some placed) (hpending : (position, name) ∈ placed.pending)
    (hmode : placed.mode ≠ some .extended) :
    ∃ mnemonic tokens k line, ∃ (address target : UInt32) (distance : Int),
      Reads source n (.instruction mnemonic tokens) ∧
      Instruction.Deferrable setting.table mnemonic tokens position name ∧
      Reads source k (.label name) ∧ program.symbols.label? name = some target ∧
      program.lines[n]? = some line ∧ line.address = some address ∧
      distance = target.toNat - (address.toNat + line.size) ∧ distance.natAbs ≤ 0xFF ∧
      (-128 ≤ distance → distance ≤ 127 → line.branchTarget? = some (target.toNat : Int)) ∧
      (127 < distance → line.branchTarget? = some (target.toNat - 256 : Int)) ∧
      (distance < -128 → line.branchTarget? = some (target.toNat + 256 : Int)) := by
  obtain ⟨mnemonic, tokens, line, opcode, number, hreads, hdeferrable, hopen, hline, hsame, hfits,
    hlast, hdenotes⟩ := linked_of_pending hbuilt hassemble hlayOut hdraft hpending hmode
  obtain ⟨k, target, address, hlabel, htarget, haddress, hdistance, hlimit⟩ :=
    hdenotes.relative_of_open hopen (hsame ▸ hmode)
  have hleads := hfits.branchTarget? haddress hlast
  refine ⟨mnemonic, tokens, k, line, address, target, number, hreads, hdeferrable, hlabel, htarget,
    hline, haddress, hdistance, hlimit, ?_, ?_, ?_⟩
  · intro hlow hhigh
    rw [hleads, Int.bmod_eq_of_le (by omega) (by omega)]
    congr 1
    omega
  · intro hfar
    have hbyte : number.bmod 256 = number - 256 := by
      rw [Int.bmod_def]
      omega
    rw [hleads, hbyte]
    congr 1
    omega
  · intro hfar
    have hbyte : number.bmod 256 = number + 256 := by
      rw [Int.bmod_def]
      omega
    rw [hleads, hbyte]
    congr 1
    omega

/-- The sample program between the passes. -/
def sampleDraft : Program where
  lines := [{}, {}, {},
    ⟨some 0x100, some (.short 0x12), some .direct, [0x20, 0x0F], [(2, "DONE".toList)], 4⟩,
    ⟨some 0x104, some (.short 0x7E), some .extended, [], [(0, "LOOP".toList)], 3⟩, {},
    ⟨some 0x107, some (.short 0x20), some .relative, [], [(0, "LOOP".toList)], 2⟩, {},
    ⟨some 0xFE, some (.short 1), none, [2], [], 2⟩, {}]
  symbols := sampleProgram.symbols

theorem branch_of_sampleProgram :
    sampleSetting.table.Built ∧ assemble sampleSetting sampleSource = .ok sampleProgram ∧
      layOut sampleSetting sampleSource = .ok sampleDraft ∧
      ∃ placed line, sampleDraft.lines[3]? = some placed ∧
        (2, "DONE".toList) ∈ placed.pending ∧ placed.mode ≠ some .extended ∧
        sampleProgram.lines[3]? = some line ∧ line.branchTarget? = some 0x107 := by
  have hlayOut : layOut sampleSetting sampleSource = .ok sampleDraft := by decide +kernel
  have hlabel : sampleProgram.symbols.label? "DONE".toList = some 0x107 := by decide +kernel
  obtain ⟨placed, hget, hpending, hmode⟩ : ∃ placed, sampleDraft.lines[3]? = some placed ∧
      (2, "DONE".toList) ∈ placed.pending ∧ placed.mode ≠ some .extended :=
    ⟨_, rfl, List.mem_cons_self, by decide⟩
  obtain ⟨-, -, -, line, address, target, distance, -, -, -, htarget, hline, haddress, hdistance, -,
      hnear, -⟩ :=
    branch_of_assemble built_sampleSetting assemble_sampleSource hlayOut hget hpending hmode
  refine ⟨built_sampleSetting, assemble_sampleSource, hlayOut, placed, line, hget, hpending, hmode,
    hline, ?_⟩
  cases hlabel.symm.trans htarget
  cases hline
  cases haddress
  exact hnear (by rw [hdistance]; decide) (by rw [hdistance]; decide)

/-- A source with a branch over 128 bytes. -/
def farSource : List Text :=
  [" ORG 0".toList, " BRA L".toList, " ORG 130".toList, "L".toList, " END".toList]

/-- The branch is assembled although its label is out of reach of a signed byte: the byte leads to
the address 256 bytes before the label. -/
theorem branch_misses_label :
    sampleSetting.table.Built ∧ ∃ draft placed program line,
      layOut sampleSetting farSource = .ok draft ∧ draft.lines[1]? = some placed ∧
      (0, "L".toList) ∈ placed.pending ∧ placed.mode = some .relative ∧
      assemble sampleSetting farSource = .ok program ∧ program.lines[1]? = some line ∧
      program.symbols.label? "L".toList = some 130 ∧ line.branchTarget? = some (-126) := by
  have hlayOut : layOut sampleSetting farSource = .ok ⟨[{}, ⟨some 0, some (.short 0x20),
      some .relative, [], [(0, "L".toList)], 2⟩, {}, {}, {}], ⟨[("L".toList, 130)], []⟩⟩ := by
    decide +kernel
  have hassemble : assemble sampleSetting farSource = .ok ⟨[{}, ⟨some 0, some (.short 0x20),
      some .relative, [128], [], 2⟩, {}, {}, {}], ⟨[("L".toList, 130)], []⟩⟩ := by
    decide +kernel
  exact ⟨built_sampleSetting, _, _, _, _, hlayOut, rfl, List.mem_cons_self, rfl, hassemble, rfl,
    by decide +kernel, by decide +kernel⟩

end Program

end TwoPass
