import TwoPass.Proofs.CodeSize
import TwoPass.Proofs.Records
import TwoPass.Report.Listing

/-!
# All outputs show the same memory

A listing goes line by line through the program, while dumps and S-records are cut from merged runs.
Read back, they fill the same memory: a row of the listing holds the piece of its line
(`readRow?_plainRow`), records hold the cells of the runs, and merging has brought the cells of the
pieces into the runs.
-/

namespace TwoPass

namespace Listing

variable {index : Nat} {line : Line} {lines : List Line} {source row : Text}
  {sources result : List Text}

/-! ## Rows of a listing -/

/-- A row with code, whatever follows the bytes. -/
theorem readRow?_code (index : Nat) (address : UInt32) (bytes : List UInt8) (rest : Text) :
    readRow? (Text.decimal index ++ ' ' :: ':' :: ' ' :: (Text.addressHex address.toNat ++
      ' ' :: '(' :: (Text.spacedHex bytes ++ ')' :: rest))) = some (some ⟨address, bytes⟩) := by
  have hindex : ' ' ∉ Text.decimal index :=
    Text.not_mem_of_numeral? (Text.numeral?_decimal index) (by decide)
  have hnumeral := Text.numeral?_addressHex address.toNat
  have hspace : ' ' ∉ Text.addressHex address.toNat :=
    Text.not_mem_of_numeral? hnumeral (by decide)
  have hclose : ')' ∉ Text.spacedHex bytes :=
    Text.not_mem_spacedHex (by decide) (by decide) bytes
  rw [readRow?, Text.dropWhile_ne_append hindex]
  split
  next tail htail =>
    -- A numeral does not start with a bracket.
    simp only [List.cons.injEq, true_and] at htail
    rcases List.append_eq_cons_iff.mp htail with ⟨hnil, -⟩ | ⟨digits, hdigits, -⟩
    · exact absurd hnil (Text.numeral?_eq_some.mp hnumeral).1
    · have hangle : '<' ∉ Text.addressHex address.toNat :=
        Text.not_mem_of_numeral? hnumeral (by decide)
      rw [hdigits] at hangle
      exact absurd List.mem_cons_self hangle
  next tail hother htail =>
    simp only [List.cons.injEq, true_and] at htail
    rw [← htail, Text.takeWhile_ne_append hspace, Text.dropWhile_ne_append hspace]
    simp [hnumeral, Text.takeWhile_ne_append hclose, Run.readSpaced?_spacedHex]
  next hother => exact absurd rfl (hother _)

/-- A row without code. -/
theorem readRow?_empty (index : Nat) (rest : Text) :
    readRow? (Text.decimal index ++ ' ' :: ':' :: ' ' :: '<' :: rest) = some none := by
  have hindex : ' ' ∉ Text.decimal index :=
    Text.not_mem_of_numeral? (Text.numeral?_decimal index) (by decide)
  rw [readRow?, Text.dropWhile_ne_append hindex]
  rfl

/-- A row shows the piece of its line, if there is one. -/
theorem readRow?_plainRow (hrow : plainRow index line source = .ok row) :
    readRow? row = some line.piece? := by
  obtain ⟨text, hbody, rfl⟩ := Outcome.map_eq_ok.mp hrow
  unfold body at hbody
  cases haddress : line.address with
  | none =>
      rw [haddress] at hbody
      cases hbody
      have hpiece : line.piece? = none := by simp [Line.piece?, haddress]
      have htext := readRow?_empty index ("empty>".toList ++ separator ++ Text.trim source)
      rw [hpiece, ← htext]
      congr 1
      simp [separator]
  | some address =>
      rw [haddress] at hbody
      obtain ⟨bytes, hbytes, rfl⟩ := Outcome.map_eq_ok.mp hbody
      have hpiece : line.piece? = some ⟨address, bytes⟩ :=
        Line.piece?_eq_some.mpr ⟨haddress, hbytes⟩
      have htext := readRow?_code index address bytes (separator ++ Text.trim source)
      rw [hpiece, ← htext]
      congr 1
      simp [separator]

/-! ## Whole listings -/

theorem rows_cons_eq_ok {row : Nat → Line → Text → Except ObjectError Text} :
    rows row index (line :: lines) (source :: sources) = .ok result ↔
      ∃ first rest, row index line source = .ok first ∧
        rows row (index + 1) lines sources = .ok rest ∧ first :: rest = result := by
  simp only [rows, Outcome.bind_eq_ok, Outcome.pure_eq_ok, exists_and_left]

/-- The rows of a listing that is not cut short show the pieces of its lines. -/
theorem forall₂_readRow? (hlength : lines.length = sources.length)
    (hrows : rows plainRow index lines sources = .ok result) :
    List.Forall₂ (fun row piece? => readRow? row = some piece?) result
      (lines.map Line.piece?) := by
  induction lines generalizing index sources result with
  | nil =>
      cases hrows
      exact .nil
  | cons line lines ih =>
      cases sources with
      | nil => cases hlength
      | cons source sources =>
          obtain ⟨first, rest, hfirst, hrest, rfl⟩ := rows_cons_eq_ok.mp hrows
          exact .cons (readRow?_plainRow hfirst) (ih (Nat.succ.inj hlength) hrest)

theorem readRows?_plain (hlength : lines.length = sources.length)
    (hrows : plain lines sources = .ok result) :
    readRows? result = some (lines.filterMap Line.piece?) := by
  have hread := Outcome.mapM_eq_some.mpr (forall₂_readRow? hlength hrows)
  rw [readRows?, hread, Option.map_some, List.filterMap_map]
  rfl

/-- Lines that have rows can be listed. -/
theorem exists_rows {row : Nat → Line → Text → Except ObjectError Text}
    (hlines : ∀ line ∈ lines, ∀ index source, ∃ text, row index line source = .ok text) :
    ∃ result, rows row index lines sources = .ok result := by
  induction lines generalizing index sources with
  | nil => exact ⟨[], rfl⟩
  | cons line lines ih =>
      cases sources with
      | nil => exact ⟨[], rfl⟩
      | cons source sources =>
          obtain ⟨hline, hrest⟩ := List.forall_mem_cons.mp hlines
          obtain ⟨text, htext⟩ := hline index source
          obtain ⟨result, hresult⟩ := @ih (index + 1) sources hrest
          exact ⟨text :: result, rows_cons_eq_ok.mpr ⟨text, result, htext, hresult, rfl⟩⟩

/-- A line has a row in either listing if it has bytes, unless it is no code at all. -/
theorem exists_plainRow (hcode : ∀ address, line.address = some address →
    ∃ bytes, line.bytes = .ok bytes) (index : Nat) (source : Text) :
    ∃ text, plainRow index line source = .ok text := by
  unfold plainRow body
  cases haddress : line.address with
  | none => exact ⟨_, rfl⟩
  | some address =>
      obtain ⟨bytes, hbytes⟩ := hcode address haddress
      rw [hbytes]
      exact ⟨_, rfl⟩

theorem exists_colouredRow (hcode : ∀ address, line.address = some address →
    ∃ bytes, line.bytes = .ok bytes) (index : Nat) (source : Text) :
    ∃ text, colouredRow index line source = .ok text := by
  unfold colouredRow
  cases haddress : line.address with
  | none => exact ⟨_, rfl⟩
  | some address =>
      obtain ⟨bytes, hbytes⟩ := hcode address haddress
      obtain ⟨groups, hgroups, -⟩ := Outcome.map_eq_ok.mp hbytes
      simp only [hgroups]
      exact ⟨_, rfl⟩

end Listing

namespace Program

variable {setting : Setting} {source : List Text} {program : Program} {runs : List Run}

/-- The outputs of a program.  If its lines can be merged, the plain listing has one row for each
source line, and the listing, the dump and the S-records all fill the same memory when they are read
back, whatever lengths of records are asked for.  The dump and the S-records list the cells of the
runs in their order, and the listing shows each of them once. -/
theorem outputs_of_assemble (hbuilt : setting.table.Built)
    (hassemble : assemble setting source = .ok program)
    (hruns : Run.ofLines program.lines = .ok runs) (m n : Nat) :
    ∃ rows listed dumped recorded,
      Listing.plain program.lines source = .ok rows ∧ rows.length = source.length ∧
      Listing.readRows? rows = some listed ∧
      Run.readDump? (Run.dump m runs) = some dumped ∧
      Run.readDataRecords? (Run.dataRecords n runs) = some recorded ∧
      Run.image listed = Run.image dumped ∧ Run.image dumped = Run.image recorded ∧
      Run.cells dumped = Run.cells recorded ∧ Run.cells recorded = Run.cells runs ∧
      (Run.cells listed).Perm (Run.cells runs) := by
  have hready := ready_of_assemble hbuilt hassemble
  obtain ⟨-, -, hapart, hfilled⟩ := Run.pieces_of_ofLines hready hruns
  have hwithin := (Run.gathered_of_ofLines hruns).2.within
  have hascending := Run.pairwise_cells_of_ofLines hruns
  have hlength : program.lines.length = source.length := by
    obtain ⟨draft, progress, -, hreached, -, -, hlinked⟩ := assemble_cases hassemble
    rw [← hlinked.length_eq, hreached.length_eq]
  have hlisted : Run.image (program.lines.filterMap Line.piece?) = Run.image runs :=
    Run.image_congr hapart hfilled.apart fun cell => hfilled.perm.symm.mem_iff
  have hrecords := fun length => Run.image_records length hwithin hascending
  obtain ⟨rows, hrows⟩ : ∃ rows, Listing.plain program.lines source = .ok rows := by
    apply Listing.exists_rows
    intro line hline
    apply Listing.exists_plainRow
    intro address _
    obtain ⟨bytes, hbytes, -⟩ := bytes_of_assemble hbuilt hassemble hline
    exact ⟨bytes, hbytes⟩
  refine ⟨rows, _, _, _, hrows, ?_, Listing.readRows?_plain hlength hrows,
    Run.readDump?_dump m runs, Run.readDataRecords?_dataRecords n hwithin, ?_, ?_, ?_, ?_,
    hfilled.perm.symm⟩
  · have hshown := (Listing.forall₂_readRow? hlength hrows).length_eq
    rwa [List.length_map, hlength] at hshown
  · rw [hlisted, hrecords]
  · rw [hrecords, hrecords]
  · rw [Run.cells_records _ hwithin, Run.cells_records _ hwithin]
  · exact Run.cells_records _ hwithin

/-- The sample has two runs without a gap between them, the first of which comes last in the
source. -/
theorem outputs_of_sampleProgram :
    sampleSetting.table.Built ∧ assemble sampleSetting sampleSource = .ok sampleProgram ∧
      ∃ runs, Run.ofLines sampleProgram.lines = .ok runs ∧
        ∃ rows listed dumped recorded,
          Listing.plain sampleProgram.lines sampleSource = .ok rows ∧ rows.length = 10 ∧
          Listing.readRows? rows = some listed ∧
          Run.readDump? (Run.dump 4 runs) = some dumped ∧
          Run.readDataRecords? (Run.dataRecords 0 runs) = some recorded ∧
          Run.image listed = Run.image dumped ∧ Run.image dumped = Run.image recorded ∧
          Run.cells dumped = Run.cells recorded ∧ Run.cells recorded = Run.cells runs ∧
          (Run.cells listed).Perm (Run.cells runs) := by
  have hruns : Run.ofLines sampleProgram.lines = .ok [⟨0xFE, [1, 2]⟩,
      ⟨0x100, [0x12, 0x20, 0x0F, 3, 0x7E, 1, 0, 0x20, 0xF7]⟩] := by decide +kernel
  exact ⟨built_sampleSetting, assemble_sampleSource, _, hruns,
    outputs_of_assemble built_sampleSetting assemble_sampleSource hruns 4 0⟩

end Program

end TwoPass
