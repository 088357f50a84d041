import TwoPass.Object.Record

/-!
# Reading object files

The inverse of writing records: from rows of a dump and from S-records back to runs.  A record whose
length or check sum is wrong is refused.
-/

namespace TwoPass.Run

/-- The byte of two hexadecimal digits. -/
def readByte? (digits : Text) : Option UInt8 :=
  if digits.length == 2 then (Text.numeral? 16 digits).map (·.toUInt8) else none

/-- The bytes of hexadecimal digits, two for each. -/
def readBytes? : Text → Option (List UInt8)
  | [] => some []
  | [_] => none
  | high :: low :: rest => do
    let byte ← readByte? [high, low]
    let bytes ← readBytes? rest
    return byte :: bytes

/-- The bytes of pairs of hexadecimal digits, with single spaces between them. -/
def readSpaced? (text : Text) : Option (List UInt8) :=
  if text.isEmpty then some [] else (text.splitOn ' ').mapM readByte?

/-- Reads a row of a hexadecimal dump. -/
def readDumpRow? : Text → Option Run
  | '<' :: rest => do
    let address ← Text.numeral? 16 (rest.takeWhile (· != '>'))
    match rest.dropWhile (· != '>') with
    | '>' :: ' ' :: spaced => return ⟨address.toUInt32, ← readSpaced? spaced⟩
    | _ => none
  | _ => none

/-- Reads an S-record with a 16-bit address.  The count tells how many bytes follow it, and all
bytes with the check sum add up to 255. -/
def readDataRecord? : Text → Option Run
  | 'S' :: '1' :: digits => do
    match ← readBytes? digits with
    | count :: high :: low :: rest =>
      if rest.isEmpty || count.toNat != rest.length + 2 then none
      else if (count :: high :: low :: rest).foldl (· + ·) 0 != 0xFF then none
      else return ⟨(high.toNat * 256 + low.toNat).toUInt32, rest.dropLast⟩
    | _ => none
  | _ => none

/-- Reads a file of S-records, up to the record that ends it. -/
def readDataRecords? : List Text → Option (List Run)
  | [] => none
  | row :: rest =>
    if row == endRecord then (if rest.isEmpty then some [] else none)
    else do
      let record ← readDataRecord? row
      let records ← readDataRecords? rest
      return record :: records

/-- Reads a hexadecimal dump. -/
def readDump? (rows : List Text) : Option (List Run) := rows.mapM readDumpRow?

end TwoPass.Run
