import TwoPass.Proofs.CodeSize

/-!
# The memory that a program fills

The lines of an assembled program occupy ranges of addresses.  They can be made into runs exactly if
these ranges lie within the address space and do not meet (`exists_runs_iff`), and the runs then
hold the bytes of the lines at their addresses and nothing else.  Both are read off the laws of
merging, in which the pieces of code take the place of the lines.
-/

namespace TwoPass

variable {setting : Setting} {source : List Text} {program : Program} {line : Line}

/-- The addresses that a line of code takes. -/
def Line.Occupies (line : Line) (k : Nat) : Prop :=
  ∃ address, line.address = some address ∧ address.toNat ≤ k ∧ k < address.toNat + line.size

/-- Two lines that share no address. -/
def Line.Clear (a b : Line) : Prop := ∀ k, a.Occupies k → ¬b.Occupies k

namespace Program

section Ranges

variable (hbuilt : setting.table.Built) (hassemble : assemble setting source = .ok program)

include hbuilt hassemble

/-- The piece of an assembled line takes the range that its address and size say. -/
theorem piece_of_assemble (hline : line ∈ program.lines) {address : UInt32}
    (haddress : line.address = some address) :
    ∃ bytes, line.bytes = .ok bytes ∧ line.piece? = some ⟨address, bytes⟩ ∧
      bytes ≠ [] ∧ bytes.length = line.size := by
  obtain ⟨bytes, hbytes, hlength⟩ := bytes_of_assemble hbuilt hassemble hline
  have hsize := size_pos_of_assemble hbuilt hassemble hline haddress
  refine ⟨bytes, hbytes, Line.piece?_eq_some.mpr ⟨haddress, hbytes⟩, ?_, hlength⟩
  exact List.length_pos_iff.mp (hlength ▸ hsize)

theorem occupies_iff (hline : line ∈ program.lines) {k : Nat} :
    line.Occupies k ↔ ∃ piece, line.piece? = some piece ∧ piece.Covers k := by
  constructor
  · intro hoccupies
    obtain ⟨address, haddress, hlow, hhigh⟩ := hoccupies
    obtain ⟨bytes, -, hpiece, -, hlength⟩ := piece_of_assemble hbuilt hassemble hline haddress
    exact ⟨⟨address, bytes⟩, hpiece, hlow, by rw [hlength]; exact hhigh⟩
  · intro hcovers
    obtain ⟨piece, hpiece, hlow, hhigh⟩ := hcovers
    obtain ⟨haddress, hbytes⟩ := Line.piece?_eq_some.mp hpiece
    obtain ⟨bytes, hbytes', -, -, hlength⟩ := piece_of_assemble hbuilt hassemble hline haddress
    cases hbytes.symm.trans hbytes'
    exact ⟨piece.start, haddress, hlow, by rw [← hlength]; exact hhigh⟩

/-- Lines are clear of each other as their pieces are apart. -/
theorem pairwise_apart_iff :
    (program.lines.filterMap Line.piece?).Pairwise Run.Apart ↔
      program.lines.Pairwise Line.Clear := by
  rw [List.pairwise_filterMap]
  refine List.Pairwise.iff_of_mem fun {a b} ha hb => ?_
  constructor
  · intro hapart k hoccupies hoccupies'
    obtain ⟨piece, hpiece, hcovers⟩ := (occupies_iff hbuilt hassemble ha).mp hoccupies
    obtain ⟨piece', hpiece', hcovers'⟩ := (occupies_iff hbuilt hassemble hb).mp hoccupies'
    exact hapart piece hpiece piece' hpiece' k hcovers hcovers'
  · intro hclear piece hpiece piece' hpiece' k hcovers hcovers'
    exact hclear k ((occupies_iff hbuilt hassemble ha).mpr ⟨piece, hpiece, hcovers⟩)
      ((occupies_iff hbuilt hassemble hb).mpr ⟨piece', hpiece', hcovers'⟩)

theorem forall_proper_iff :
    (∀ piece ∈ program.lines.filterMap Line.piece?, piece.Proper) ↔
      ∀ line ∈ program.lines, ∀ address, line.address = some address →
        address.toNat + line.size ≤ 0x10000 := by
  constructor
  · intro hproper line hline address haddress
    obtain ⟨bytes, -, hpiece, -, hlength⟩ := piece_of_assemble hbuilt hassemble hline haddress
    have hbounded := (hproper _ (List.mem_filterMap.mpr ⟨line, hline, hpiece⟩)).bounded
    rwa [hlength] at hbounded
  · intro hbounded piece hmem
    obtain ⟨line, hline, hpiece⟩ := List.mem_filterMap.mp hmem
    obtain ⟨haddress, hbytes⟩ := Line.piece?_eq_some.mp hpiece
    obtain ⟨bytes, hbytes', -, hsome, hlength⟩ :=
      piece_of_assemble hbuilt hassemble hline haddress
    cases hbytes.symm.trans hbytes'
    exact ⟨hsome, by rw [hlength]; exact hbounded line hline piece.start haddress⟩

theorem filterMap_ne_nil_iff :
    program.lines.filterMap Line.piece? ≠ [] ↔ ∃ line ∈ program.lines, line.address.isSome := by
  constructor
  · intro hsome
    obtain ⟨piece, hmem⟩ := List.exists_mem_of_ne_nil _ hsome
    obtain ⟨line, hline, hpiece⟩ := List.mem_filterMap.mp hmem
    refine ⟨line, hline, ?_⟩
    rw [(Line.piece?_eq_some.mp hpiece).1, Option.isSome_some]
  · intro hcode
    obtain ⟨line, hline, hsome⟩ := hcode
    obtain ⟨address, haddress⟩ := Option.isSome_iff_exists.mp hsome
    obtain ⟨bytes, -, hpiece, -⟩ := piece_of_assemble hbuilt hassemble hline haddress
    exact List.ne_nil_of_mem (List.mem_filterMap.mpr ⟨line, hline, hpiece⟩)

/-- There are runs exactly if there is code, all of it within the address space, and no two lines
meet. -/
theorem exists_runs_iff :
    (∃ runs, Run.ofLines program.lines = .ok runs) ↔
      (∃ line ∈ program.lines, line.address.isSome) ∧
      (∀ line ∈ program.lines, ∀ address, line.address = some address →
        address.toNat + line.size ≤ 0x10000) ∧
      program.lines.Pairwise Line.Clear := by
  have hready := ready_of_assemble hbuilt hassemble
  rw [← filterMap_ne_nil_iff hbuilt hassemble, ← forall_proper_iff hbuilt hassemble,
    ← pairwise_apart_iff hbuilt hassemble]
  constructor
  · rintro ⟨runs, hruns⟩
    obtain ⟨hsome, hproper, hapart, hfilled⟩ := Run.pieces_of_ofLines hready hruns
    refine ⟨?_, hproper, hapart⟩
    -- Runs without pieces would have no cells.
    intro hnil
    obtain ⟨run, hrun⟩ := List.exists_mem_of_ne_nil _ hsome
    have hcovers : run.Covers run.start.toNat :=
      ⟨Nat.le_refl _, Nat.lt_add_of_pos_right (hfilled.proper run hrun).length_pos⟩
    obtain ⟨piece, hpiece, -⟩ := Run.exists_covers_of_perm hfilled.perm hrun hcovers
    rw [hnil] at hpiece
    cases hpiece
  · intro hconditions
    obtain ⟨hsome, hproper, hapart⟩ := hconditions
    exact Run.exists_ofLines hready hsome hproper hapart

end Ranges

/-- The memory that a program fills.  There are runs exactly if there is code, all of it within the
address space, and no two lines of code meet.  The runs then hold something each, lie within the
address space and are apart; they put the bytes of every line at its address and nothing anywhere
else, and every byte stands in them once. -/
theorem image_of_assemble (hbuilt : setting.table.Built)
    (hassemble : assemble setting source = .ok program) :
    ((∃ runs, Run.ofLines program.lines = .ok runs) ↔
      (∃ line ∈ program.lines, line.address.isSome) ∧
      (∀ line ∈ program.lines, ∀ address, line.address = some address →
        address.toNat + line.size ≤ 0x10000) ∧
      program.lines.Pairwise Line.Clear) ∧
    ∀ runs, Run.ofLines program.lines = .ok runs →
      runs ≠ [] ∧
      (∀ run ∈ runs, run.bytes ≠ [] ∧ run.start.toNat + run.bytes.length ≤ 0x10000) ∧
      runs.Pairwise Run.Apart ∧
      (∀ address byte, Run.image runs address = some byte ↔
        ∃ line ∈ program.lines, ∃ start bytes j, line.address = some start ∧
          line.bytes = .ok bytes ∧ bytes[j]? = some byte ∧ address = start.toNat + j) ∧
      (Run.cells runs).Perm (Run.cells (program.lines.filterMap Line.piece?)) := by
  refine ⟨exists_runs_iff hbuilt hassemble, ?_⟩
  intro runs hruns
  obtain ⟨hsome, -, -, hfilled⟩ :=
    Run.pieces_of_ofLines (ready_of_assemble hbuilt hassemble) hruns
  refine ⟨hsome, ?_, hfilled.apart, ?_, hfilled.perm⟩
  · intro run hrun
    obtain ⟨hbytes, hbounded⟩ := hfilled.proper run hrun
    exact ⟨hbytes, hbounded⟩
  · intro address byte
    rw [Run.image_eq_some_iff hfilled.apart, hfilled.perm.mem_iff, Line.mem_cells_pieces]

theorem image_of_sampleProgram :
    sampleSetting.table.Built ∧ assemble sampleSetting sampleSource = .ok sampleProgram ∧
      Run.ofLines sampleProgram.lines = .ok [⟨0xFE, [1, 2]⟩,
        ⟨0x100, [0x12, 0x20, 0x0F, 3, 0x7E, 1, 0, 0x20, 0xF7]⟩] ∧
      sampleProgram.lines.Pairwise Line.Clear := by
  have hruns : Run.ofLines sampleProgram.lines = .ok [⟨0xFE, [1, 2]⟩,
      ⟨0x100, [0x12, 0x20, 0x0F, 3, 0x7E, 1, 0, 0x20, 0xF7]⟩] := by decide +kernel
  have himage := image_of_assemble built_sampleSetting assemble_sampleSource
  exact ⟨built_sampleSetting, assemble_sampleSource, hruns, (himage.1.mp ⟨_, hruns⟩).2.2⟩

end Program

end TwoPass
