import TwoPass.Object.Run

/-!
# Records

Object code is written in records of a given number of bytes: as a plain hexadecimal dump, or as
S-records, each of which carries its length, its address and a check sum.
-/

namespace TwoPass

/-- Bytes cut into stretches: all but the last hold `length` bytes.  A length of zero counts as
one. -/
def chunks (length : Nat) : List UInt8 → List (List UInt8)
  | [] => []
  | byte :: rest => (byte :: rest.take (length - 1)) :: chunks length (rest.drop (length - 1))
termination_by bytes => bytes.length
decreasing_by
  rw [List.length_drop, List.length_cons]
  exact Nat.lt_succ_of_le (Nat.sub_le _ _)

/-- The stretches together are the bytes that were cut. -/
@[simp] theorem flatten_chunks (length : Nat) (bytes : List UInt8) :
    (chunks length bytes).flatten = bytes := by
  fun_induction chunks length bytes with
  | case1 => rfl
  | case2 byte rest ih => simp [ih]

/-- Consecutive stretches with their addresses, the first of which is `address`. -/
def addressed (address : UInt32) : List (List UInt8) → List Run
  | [] => []
  | piece :: rest => ⟨address, piece⟩ :: addressed (address + piece.length.toUInt32) rest

namespace Run

/-- The number of data bytes in a record where nothing else is asked for. -/
def defaultRecordLength : Nat := 16

/-- The most data bytes in an S-record: the count byte covers two address bytes, the data and the
check sum. -/
def maxRecordLength : Nat := 0xFF - 3

/-- The records of a run, with `length` bytes each except perhaps the last. -/
def records (length : Nat) (run : Run) : List Run := addressed run.start (chunks length run.bytes)

/-- One row of a hexadecimal dump. -/
def dumpRow (record : Run) : Text :=
  '<' :: Text.addressHex record.start.toNat ++ "> ".toList ++ Text.spacedHex record.bytes

/-- The hexadecimal dump of some runs. -/
def dump (length : Nat) (runs : List Run) : List Text :=
  runs.flatMap fun run => (run.records length).map dumpRow

/-- The complement of the low byte of a sum. -/
def checksum (bytes : List UInt8) : UInt8 := ~~~(bytes.foldl (· + ·) 0)

/-- The bytes of an S-record without its check sum: count, address and data. -/
def recordBody (record : Run) : List UInt8 :=
  (record.bytes.length + 3).toUInt8 :: (record.start.toNat / 256).toUInt8 ::
    record.start.toNat.toUInt8 :: record.bytes

/-- An S-record with a 16-bit address. -/
def dataRecord (record : Run) : Text :=
  let body := recordBody record
  "S1".toList ++ (body ++ [checksum body]).flatMap Text.byteHex

/-- The record that ends a file of S-records. -/
def endRecord : Text := "S9030000FC".toList

/-- The S-records of some runs. -/
def dataRecords (length : Nat) (runs : List Run) : List Text :=
  (runs.flatMap fun run => (run.records (min length maxRecordLength)).map dataRecord) ++ [endRecord]

end Run

end TwoPass
