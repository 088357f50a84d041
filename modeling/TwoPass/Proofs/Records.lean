import Mathlib.Algebra.GroupWithZero.Nat
import TwoPass.Proofs.ArbitraryLines
import TwoPass.Proofs.Numerals

/-!
# Records hold the runs

Runs are cut into records, and every record is written as a row of text.  Two facts make up the
round trip: the records have the cells of the runs, in the same order and whatever their length
(`cells_records`), and every row reads back as its record (`readDumpRow?_dumpRow`,
`IsDataRecord.read`).

`IsDataRecord` is the format of an S-record without the functions that write and read one.  A count
and an address are single bytes there, so a record has this format only if it is short enough and
lies within the 16-bit address space.  Merging sees to the second (`Gathered.within`).
-/

namespace TwoPass

/-! ## Cutting a run -/

theorem mem_chunks {length : Nat} {bytes piece : List UInt8} (hpiece : piece ∈ chunks length bytes) :
    piece ≠ [] ∧ piece.length ≤ max length 1 := by
  fun_induction chunks length bytes with
  | case1 => cases hpiece
  | case2 byte rest ih =>
      rcases List.mem_cons.mp hpiece with rfl | hlater
      · refine ⟨List.cons_ne_nil _ _, ?_⟩
        rw [List.length_cons, List.length_take]
        omega
      · exact ih hlater

namespace Run

variable {run record : Run} {runs others : List Run} {length : Nat} {row : Text} {rows : List Text}

/-- Stretches that follow each other have the cells of the bytes that they make up. -/
theorem cells_addressed {address : UInt32} {pieces : List (List UInt8)}
    (hbound : address.toNat + pieces.flatten.length ≤ 0x10000) :
    cells (addressed address pieces) = cellsFrom address.toNat pieces.flatten ∧
      ∀ record ∈ addressed address pieces, record.bytes ∈ pieces ∧ record.Within := by
  induction pieces generalizing address with
  | nil => exact ⟨rfl, by simp [addressed]⟩
  | cons piece rest ih =>
      rw [List.flatten_cons, List.length_append] at hbound
      have hfirst : (⟨address, piece⟩ : Run).Within := by
        unfold Within
        show address.toNat + piece.length ≤ 0x10000
        omega
      have hnext : (address + piece.length.toUInt32).toNat = address.toNat + piece.length :=
        finish_toNat hfirst
      have hrest : (address + piece.length.toUInt32).toNat + rest.flatten.length ≤ 0x10000 := by
        omega
      obtain ⟨hcells, hrecords⟩ := ih hrest
      refine ⟨?_, List.forall_mem_cons.mpr ⟨⟨List.mem_cons_self, hfirst⟩, ?_⟩⟩
      · rw [List.flatten_cons, cellsFrom_append, ← hnext, ← hcells]
        rfl
      · intro record hrecord
        obtain ⟨hbytes, hwithin⟩ := hrecords record hrecord
        exact ⟨List.mem_cons_of_mem _ hbytes, hwithin⟩

theorem within_chunks (length : Nat) (hrun : run.Within) :
    run.start.toNat + (chunks length run.bytes).flatten.length ≤ 0x10000 := by
  rw [flatten_chunks]
  exact hrun

/-- The records of some runs have the cells of the runs, in the same order. -/
theorem cells_records (length : Nat) (hruns : ∀ run ∈ runs, run.Within) :
    cells (runs.flatMap (·.records length)) = cells runs := by
  induction runs with
  | nil => rfl
  | cons run rest ih =>
      obtain ⟨hrun, hrest⟩ := List.forall_mem_cons.mp hruns
      have hfirst : cells (run.records length) = cellsFrom run.start.toNat run.bytes := by
        rw [records, (cells_addressed (within_chunks length hrun)).1, flatten_chunks]
      have happend : cells ((run :: rest).flatMap (·.records length)) =
          cells (run.records length) ++ cells (rest.flatMap (·.records length)) := by
        simp [cells]
      rw [happend, hfirst, ih hrest]
      rfl

theorem mem_records (hruns : ∀ run ∈ runs, run.Within)
    (hrecord : record ∈ runs.flatMap (·.records length)) :
    record.bytes ≠ [] ∧ record.bytes.length ≤ max length 1 ∧ record.Within := by
  obtain ⟨run, hrun, hrecord⟩ := List.mem_flatMap.mp hrecord
  obtain ⟨hbytes, hwithin⟩ :=
    (cells_addressed (within_chunks length (hruns run hrun))).2 record hrecord
  obtain ⟨hsome, hlength⟩ := mem_chunks hbytes
  exact ⟨hsome, hlength, hwithin⟩

/-! ## Rows of a dump -/

theorem readDumpRow?_dumpRow (record : Run) : readDumpRow? (dumpRow record) = some record := by
  have hnumeral := Text.numeral?_addressHex record.start.toNat
  have hend : '>' ∉ Text.addressHex record.start.toNat :=
    Text.not_mem_of_numeral? hnumeral (by decide)
  have hrow : dumpRow record = '<' :: (Text.addressHex record.start.toNat ++
      '>' :: ' ' :: Text.spacedHex record.bytes) := by
    simp [dumpRow]
  rw [hrow, readDumpRow?, Text.takeWhile_ne_append hend, Text.dropWhile_ne_append hend]
  simp [hnumeral, readSpaced?_spacedHex]

theorem readDump?_dump (length : Nat) (runs : List Run) :
    readDump? (dump length runs) = some (runs.flatMap (·.records length)) := by
  have hdump : dump length runs = (runs.flatMap (·.records length)).map dumpRow := by
    rw [dump, List.map_flatMap]
  rw [hdump, readDump?]
  exact Outcome.mapM_map_eq_some fun record _ => readDumpRow?_dumpRow record

/-! ## S-records -/

/-- A row is the S-record of some bytes at an address: a count of all bytes that follow it, two bytes
of address, one to 252 bytes of data, and a check sum with which all bytes add up to 255. -/
def IsDataRecord (row : Text) (record : Run) : Prop :=
  ∃ count high low sum : UInt8,
    row = "S1".toList ++ (count :: high :: low :: (record.bytes ++ [sum])).flatMap Text.byteHex ∧
    count.toNat = (high :: low :: (record.bytes ++ [sum])).length ∧
    1 ≤ record.bytes.length ∧ record.bytes.length ≤ 252 ∧
    ((count :: high :: low :: (record.bytes ++ [sum])).map UInt8.toNat).sum % 256 = 0xFF ∧
    high.toNat * 256 + low.toNat = record.start.toNat

theorem toNat_foldl_add (bytes : List UInt8) (start : UInt8) :
    (bytes.foldl (· + ·) start).toNat = (start.toNat + (bytes.map UInt8.toNat).sum) % 256 := by
  induction bytes generalizing start with
  | nil => simp [Nat.mod_eq_of_lt start.toNat_lt]
  | cons byte rest ih =>
      rw [List.foldl_cons, ih, UInt8.toNat_add, List.map_cons, List.sum_cons]
      omega

/-- With the check sum added, bytes add up to 255. -/
theorem sum_checksum (bytes : List UInt8) :
    ((bytes ++ [checksum bytes]).map UInt8.toNat).sum % 256 = 0xFF := by
  have hchecksum : (checksum bytes).toNat = 255 - (bytes.map UInt8.toNat).sum % 256 := by
    have hfold := toNat_foldl_add bytes 0
    rw [checksum, UInt8.toNat_not, hfold]
    simp
  rw [List.map_append, List.sum_append, List.map_singleton, List.sum_singleton, hchecksum]
  omega

theorem isDataRecord_dataRecord (hsome : record.bytes ≠ []) (hlength : record.bytes.length ≤ 252)
    (hwithin : record.Within) : IsDataRecord (dataRecord record) record := by
  have hpos : 1 ≤ record.bytes.length := List.length_pos_iff.mpr hsome
  have hstart : record.start.toNat < 0x10000 := by
    unfold Within at hwithin
    omega
  refine ⟨(record.bytes.length + 3).toUInt8, (record.start.toNat / 256).toUInt8,
    record.start.toNat.toUInt8, checksum (recordBody record), rfl, ?_, hpos, hlength, ?_, ?_⟩
  · rw [Nat.toUInt8, UInt8.toNat_ofNat']
    simp only [List.length_cons, List.length_append, List.length_nil]
    omega
  · exact sum_checksum (recordBody record)
  · simp only [Nat.toUInt8, UInt8.toNat_ofNat']
    omega

theorem IsDataRecord.read (hrow : IsDataRecord row record) : readDataRecord? row = some record := by
  obtain ⟨count, high, low, sum, rfl, hcount, -, -, hsum, hstart⟩ := hrow
  have hbytes := readBytes?_flatMap_byteHex (count :: high :: low :: (record.bytes ++ [sum]))
  have hfold : (count :: high :: low :: (record.bytes ++ [sum])).foldl (· + ·) 0 = 0xFF := by
    apply UInt8.toNat_inj.mp
    rw [toNat_foldl_add]
    simpa using hsum
  have hcount' : count.toNat = (record.bytes ++ [sum]).length + 2 := by
    rw [hcount]
    rfl
  have haddress : (high.toNat * 256 + low.toNat).toUInt32 = record.start := by
    rw [hstart]
    exact UInt32.ofNat_toNat
  show readDataRecord? ('S' :: '1' ::
    (count :: high :: low :: (record.bytes ++ [sum])).flatMap Text.byteHex) = some record
  rw [readDataRecord?, hbytes]
  have hsome : ((record.bytes ++ [sum]).isEmpty ||
      count.toNat != (record.bytes ++ [sum]).length + 2) = false := by
    simp [hcount']
  simp only [Option.bind_eq_bind, Option.bind_some, hsome, hfold, haddress, List.dropLast_concat]
  rfl

theorem IsDataRecord.ne_endRecord (hrow : IsDataRecord row record) : row ≠ endRecord := by
  obtain ⟨count, high, low, sum, rfl, -⟩ := hrow
  intro hsame
  have hsecond : some '1' = some '9' := congrArg (fun text : Text => text[1]?) hsame
  exact absurd hsecond (by decide)

/-- A file of S-records reads as what its rows are the records of. -/
theorem readDataRecords?_append (hrows : List.Forall₂ IsDataRecord rows others) :
    readDataRecords? (rows ++ [endRecord]) = some others := by
  induction hrows with
  | nil => rfl
  | cons hrow _ ih =>
      have hother : (_ == endRecord) = false := beq_false_of_ne hrow.ne_endRecord
      rw [List.cons_append, readDataRecords?, hother, hrow.read, ih]
      rfl

/-! ## Whole files -/

/-- The rows of a file of S-records: the records of the runs, and the end record. -/
theorem forall₂_isDataRecord (length : Nat) (hruns : ∀ run ∈ runs, run.Within) :
    ∃ rows, dataRecords length runs = rows ++ [endRecord] ∧
      List.Forall₂ IsDataRecord rows (runs.flatMap (·.records (min length maxRecordLength))) := by
  refine ⟨(runs.flatMap (·.records (min length maxRecordLength))).map dataRecord, ?_, ?_⟩
  · rw [dataRecords, List.map_flatMap]
  · rw [List.forall₂_map_left_iff, List.forall₂_same]
    intro record hrecord
    obtain ⟨hsome, hlength, hwithin⟩ := mem_records hruns hrecord
    have hmax : maxRecordLength = 252 := rfl
    exact isDataRecord_dataRecord hsome (by omega) hwithin

theorem readDataRecords?_dataRecords (length : Nat) (hruns : ∀ run ∈ runs, run.Within) :
    readDataRecords? (dataRecords length runs) =
      some (runs.flatMap (·.records (min length maxRecordLength))) := by
  obtain ⟨rows, hrows, hrecords⟩ := forall₂_isDataRecord length hruns
  rw [hrows, readDataRecords?_append hrecords]

/-- Records of any length fill the memory that the runs fill. -/
theorem image_records (length : Nat) (hruns : ∀ run ∈ runs, run.Within)
    (hascending : (cells runs).Pairwise fun a b => a.1 < b.1) :
    image (runs.flatMap (·.records length)) = image runs := by
  have hcells := cells_records length hruns
  apply image_congr (pairwise_apart (hcells ▸ hascending)) (pairwise_apart hascending)
  intro cell
  rw [hcells]

variable {lines : List Line}

/-- The S-records of runs.  All rows but the last are S-records of one to 252 bytes, whatever length
is asked for; the last is the end record.  Reading the file gives the cells of the runs in
ascending order, each of them once, so the memory that is read depends on the runs only. -/
theorem dataRecords_of_ofLines (h : ofLines lines = .ok runs) (length : Nat) :
    ∃ rows records, dataRecords length runs = rows ++ [endRecord] ∧
      List.Forall₂ IsDataRecord rows records ∧
      readDataRecords? (dataRecords length runs) = some records ∧
      cells records = cells runs ∧ ((cells runs).Pairwise fun a b => a.1 < b.1) ∧
      image records = image runs := by
  have hwithin := (gathered_of_ofLines h).2.within
  have hascending := pairwise_cells_of_ofLines h
  obtain ⟨rows, hrows, hrecords⟩ := forall₂_isDataRecord length hwithin
  exact ⟨rows, _, hrows, hrecords, readDataRecords?_dataRecords length hwithin,
    cells_records _ hwithin, hascending, image_records _ hwithin hascending⟩

/-- Records of two bytes, the last of which is not full. -/
theorem dataRecords_of_ofLines_two :
    ofLines [.data 0x8000 [0, 1, 2], .data 0x10 [0xFF]] = .ok [⟨0x10, [0xFF]⟩, ⟨0x8000, [0, 1, 2]⟩] ∧
      dataRecords 2 [⟨0x10, [0xFF]⟩, ⟨0x8000, [0, 1, 2]⟩] =
        ["S1040010FFEC".toList, "S1058000000179".toList, "S10480020277".toList, endRecord] ∧
      ∃ records, readDataRecords? (dataRecords 2 [⟨0x10, [0xFF]⟩, ⟨0x8000, [0, 1, 2]⟩]) =
          some records ∧
        cells records = [(0x10, 0xFF), (0x8000, 0), (0x8001, 1), (0x8002, 2)] := by
  have hruns : ofLines [.data 0x8000 [0, 1, 2], .data 0x10 [0xFF]] =
      .ok [⟨0x10, [0xFF]⟩, ⟨0x8000, [0, 1, 2]⟩] := by decide +kernel
  obtain ⟨rows, records, -, -, hread, hcells, -⟩ := dataRecords_of_ofLines hruns 2
  exact ⟨hruns, by decide +kernel, records, hread, hcells⟩

end Run

end TwoPass
